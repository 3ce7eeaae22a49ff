import WinterLily.Base.Utf8
import WinterLily.Base.Transition

/-! `EnvMap` of `wl-impl/src/env.rs`: entries in one byte buffer, an index from keys to offsets and a
list of free entries. `none` is a panic. -/
namespace WinterLily.Env
open WinterLily.Bytes WinterLily.Utf8

def keyTerm : Byte := 0xFE#8
def entryTerm : Byte := 0xFF#8

/-- `EMPTY`. -/
def empty : List Byte := [keyTerm,entryTerm]

/-- `size_of::<usize>()`. -/
def wordSize : ℕ := 8

/-- The largest capacity of a `Vec<u8>`. -/
def isizeMax : ℕ := 2^63-1

def entryLen (k v : Str) : ℕ := wordSize+2+k.1.length+v.1.length

/-- The index, up to its hashing: a finite map. -/
abbrev Index := Str → Option ℕ

structure EnvMap where
  env : List Byte
  envMap : Index
  freelist : List ℕ

/-- The keys of the hasher. -/
structure RandomState where
  k0 : BitVec 64
  k1 : BitVec 64

/-- `RandomState::new()` of `ministd.rs` is `todo!()`. -/
def RandomState.new : Option RandomState := none

/-- `HashMap::new()`. -/
def Index.new : Option Index := RandomState.new.map fun _ => fun _ => none

/-- `env.reserve(elen)`, then the new entry at the end of the buffer. -/
def pushEntry (env : List Byte) (key val : Str) : Option (List Byte) :=
  let elen := entryLen key val
  if env.length+elen ≤ isizeMax then
    some (env++toLE wordSize elen++key.1++[keyTerm]++val.1++[entryTerm])
  else none

/-- The loop of `from_iter`. -/
def fromIterLoop (m : EnvMap) : List (Str × Str) → Option EnvMap
  | [] => some m
  | (key,val)::rest =>
    if (m.envMap key).isSome then none
    else do
      let env ← pushEntry m.env key val
      fromIterLoop { m with env, envMap := Function.update m.envMap key (some m.env.length) } rest

/-- `from_iter` on an index already made. -/
def fromIterIn (index : Index) (pairs : List (Str × Str)) : Option EnvMap :=
  fromIterLoop ⟨[],index,[]⟩ pairs

def fromIter (pairs : List (Str × Str)) : Option EnvMap :=
  Index.new.bind fun index => fromIterIn index pairs

/-- The length prefix of the entry at `off`. -/
def prefixAt (env : List Byte) (off : ℕ) : Option ℕ := do
  let ptr ← (whole env).after off
  let bytes := ptr.get env
  if wordSize ≤ bytes.length then some (ofLE (bytes.take wordSize)) else none

/-- Marks the entry at `off` as empty. -/
def blank (env : List Byte) (off : ℕ) : Option (List Byte) := do
  let ptr ← (whole env).after (off+wordSize)
  let head ← ptr.upTo 2
  head.copyFrom env empty

/-- A value and its terminator at the start of a window. -/
def putValue (ptr : Slice) (env : List Byte) (val : Str) : Option (List Byte) := do
  let head ← ptr.upTo val.1.length
  let env ← head.copyFrom env val.1
  ptr.setAt env val.1.length entryTerm

namespace EnvMap

def var (m : EnvMap) (key : Str) : Option (Option Str) :=
  match m.envMap key with
  | none => some none
  | some var => do
    let ptr ← (whole m.env).after (var+wordSize)
    let ptr ← ptr.after (key.1.length+1)
    let bytes := ptr.get m.env
    let stop ← bytes.findIdx? (· == entryTerm)
    if h : isUtf8 (bytes.take stop) = true then some (some ⟨bytes.take stop,h⟩) else none

def removeVar (m : EnvMap) (key : Str) : Option EnvMap :=
  match m.envMap key with
  | none => some m
  | some var => do
    let env ← blank m.env var
    some { m with env, envMap := Function.update m.envMap key none }

/-- The search of the free list; the comparison is the source's, `tlen <= elen`. -/
def findFree (env : List Byte) (elen : ℕ) : ℕ → List ℕ → Option (Option (ℕ × ℕ))
  | _,[] => some none
  | i,elem::rest => do
    let tlen ← prefixAt env elem
    if tlen ≤ elen then some (some (i,elem)) else findFree env elen (i+1) rest

/-- `Vec::swap_remove`. -/
def swapRemove (l : List ℕ) (i : ℕ) : List ℕ :=
  match l.getLast? with
  | none => []
  | some last => (l.set i last).dropLast

/-- The free-list branch, which writes through the window `..elem`. -/
def reuse (m : EnvMap) (key val : Str) (i elem : ℕ) : Option EnvMap := do
  let m ← match m.envMap key with
    | some old => do
      let env ← blank m.env old
      some ⟨env,Function.update m.envMap key (some elem),m.freelist.set i old⟩
    | none =>
      some { m with
        envMap := Function.update m.envMap key (some elem), freelist := swapRemove m.freelist i }
  let ptr ← (whole m.env).upTo elem
  let off := wordSize+key.1.length
  let head ← ptr.range wordSize off
  let env ← head.copyFrom m.env key.1
  let env ← ptr.setAt env off keyTerm
  let ptr ← ptr.after (off+1)
  let env ← putValue ptr env val
  some { m with env }

/-- The last branch: a new entry at the end of the buffer. -/
def append (m : EnvMap) (key val : Str) : Option EnvMap := do
  let elem := m.env.length
  let env ← pushEntry m.env key val
  match m.envMap key with
  | some old => do
    let env ← blank env old
    some ⟨env,Function.update m.envMap key (some elem),m.freelist++[old]⟩
  | none => some { m with env, envMap := Function.update m.envMap key (some elem) }

/-- What `set_var` does when the value does not go over the old one. -/
def setElsewhere (m : EnvMap) (key val : Str) : Option EnvMap := do
  match ← findFree m.env (entryLen key val) 0 m.freelist with
  | some (i,elem) => m.reuse key val i elem
  | none => m.append key val

/-- The value over the old one, in the entry at `var`. -/
def overwrite (m : EnvMap) (key val : Str) (var : ℕ) : Option EnvMap := do
  let ptr ← (whole m.env).after var
  let ptr ← ptr.after (wordSize+1+key.1.length)
  let env ← putValue ptr m.env val
  some { m with env }

def setVar (m : EnvMap) (key val : Str) : Option EnvMap :=
  match m.envMap key with
  | some var => do
    let tlen ← prefixAt m.env var
    if entryLen key val ≤ tlen then m.overwrite key val var else m.setElsewhere key val
  | none => m.setElsewhere key val

end EnvMap

/-- `Iter::next` on what is left of the buffer: `some none` at the end of it. -/
def Iter.next (it : List Byte) : Option (Option ((Str × Str) × List Byte)) :=
  if it.length < wordSize then some none
  else do
    let len := ofLE (it.take wordSize)
    let rest := it.drop wordSize
    let tail ← (whole it).after len
    let off ← rest.findIdx? (· == keyTerm)
    let key := rest.take off
    let rest := rest.drop off
    let stop ← rest.findIdx? (· == entryTerm)
    let val ← (whole rest).range 1 stop
    let key ← fromUtf8 key
    let val ← fromUtf8 (val.get rest)
    some (some ((key,val),tail.get it))

/-- The iterator comes to its end without a panic, after yielding `items`. -/
inductive Iterates : List Byte → List (Str × Str) → Prop
  | done {it : List Byte} : Iter.next it = some none → Iterates it []
  | item {it tail : List Byte} {p : Str × Str} {items : List (Str × Str)} :
      Iter.next it = some (some (p,tail)) → Iterates tail items → Iterates it (p::items)

end WinterLily.Env
