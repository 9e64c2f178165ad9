import Mathlib.Data.List.Induction
import Mathlib.Tactic.Common

/-!
# Self-delimiting codes and streaming decoders

A frame code turns a payload into a block whose end can be recognised from the
block itself. A streaming decoder appends whatever bytes arrive to a buffer,
splits off complete blocks and keeps the rest. `feed_foldl` says that the cuts
between arrivals are invisible: any chunking decodes like one single arrival.

`decode_of_append` is the step rule for a reader whose buffer is a prefix of a
stream of blocks: either the first block is not complete yet, or exactly its
payload is split off.
-/

set_option autoImplicit false

namespace CppCodes.Library

structure FrameCode (α β : Type*) where
  Valid : α → Prop
  encode : α → List β
  decode : List β → Option (α × List β)
  /-- A block is recognised whatever follows it. -/
  decode_encode : ∀ a rest, Valid a → decode (encode a ++ rest) = some (a, rest)
  /-- Nothing is split off that is not a block. -/
  decode_sound : ∀ {bytes a rest}, decode bytes = some (a, rest) →
    Valid a ∧ bytes = encode a ++ rest
  encode_ne_nil : ∀ a, encode a ≠ []

namespace FrameCode

variable {α β : Type*} (code : FrameCode α β)

theorem decode_shorter {bytes rest : List β} {a : α} (h : code.decode bytes = some (a, rest)) :
    rest.length < bytes.length := by
  have hb := (code.decode_sound h).2
  have hpos := List.length_pos_iff.mpr (code.encode_ne_nil a)
  rw [hb, List.length_append]
  omega

theorem decode_nil : code.decode [] = none := by
  cases h : code.decode [] with
  | none => rfl
  | some split => exact absurd (code.decode_shorter h) (by simp)

/-- Bytes that arrive later do not change a block already complete. -/
theorem decode_append {bytes rest : List β} {a : α} (h : code.decode bytes = some (a, rest))
    (later : List β) : code.decode (bytes ++ later) = some (a, rest ++ later) := by
  obtain ⟨hv, rfl⟩ := code.decode_sound h
  rw [List.append_assoc]
  exact code.decode_encode a _ hv

/-- A buffer `bytes` with `later` still to come, together a block and its
successors: the block is complete and is split off, or the buffer is a proper
prefix of it. -/
theorem decode_of_append {bytes later rest : List β} {a : α} (hv : code.Valid a)
    (h : bytes ++ later = code.encode a ++ rest) :
    (∃ left, code.decode bytes = some (a, left) ∧ left ++ later = rest) ∨
      (code.decode bytes = none ∧ bytes.length < (code.encode a).length) := by
  rcases List.append_eq_append_iff.mp h with ⟨missing, hm, hl⟩ | ⟨left, hb, hr⟩
  · cases hd : code.decode bytes with
    | none =>
      by_cases hz : missing = []
      · have he : code.decode bytes = some (a, []) := by
          rw [hz, List.append_nil] at hm
          simpa [← hm] using code.decode_encode a [] hv
        rw [he] at hd
        cases hd
      · have hpos := List.length_pos_iff.mpr hz
        refine Or.inr ⟨rfl, ?_⟩
        rw [hm, List.length_append]
        omega
    | some split =>
      obtain ⟨b, left⟩ := split
      have hfull := code.decode_append hd later
      rw [h, code.decode_encode a rest hv] at hfull
      simp only [Option.some.injEq, Prod.mk.injEq] at hfull
      exact Or.inl ⟨left, by rw [hfull.1], hfull.2.symm⟩
  · exact Or.inl ⟨left, by rw [hb]; exact code.decode_encode a left hv, hr.symm⟩

/-- Split off blocks until none is complete. -/
def decodeAll (bytes : List β) : List α × List β :=
  match h : code.decode bytes with
  | none => ([], bytes)
  | some (a, rest) =>
      have : rest.length < bytes.length := code.decode_shorter h
      let (payloads, left) := decodeAll rest
      (a :: payloads, left)
termination_by bytes.length

theorem decodeAll_none {bytes : List β} (h : code.decode bytes = none) :
    code.decodeAll bytes = ([], bytes) := by
  rw [decodeAll]
  split
  · rfl
  · next he => rw [h] at he; cases he

theorem decodeAll_some {bytes rest : List β} {a : α} (h : code.decode bytes = some (a, rest)) :
    code.decodeAll bytes = (a :: (code.decodeAll rest).1, (code.decodeAll rest).2) := by
  rw [decodeAll]
  split
  · next he => rw [h] at he; cases he
  · next he =>
    rw [h] at he
    cases he
    rfl

theorem decodeAll_nil : code.decodeAll [] = ([], []) := code.decodeAll_none code.decode_nil

/-- Decoding what is buffered first and the later bytes afterwards is decoding
everything at once. -/
theorem decodeAll_append (bytes later : List β) :
    code.decodeAll (bytes ++ later) =
      ((code.decodeAll bytes).1 ++ (code.decodeAll ((code.decodeAll bytes).2 ++ later)).1,
        (code.decodeAll ((code.decodeAll bytes).2 ++ later)).2) := by
  induction hn : bytes.length using Nat.strongRecOn generalizing bytes with
  | ind n ih =>
    cases hd : code.decode bytes with
    | none => simp [code.decodeAll_none hd]
    | some split =>
      obtain ⟨a, rest⟩ := split
      have hrest := ih rest.length (hn ▸ code.decode_shorter hd) rest rfl
      rw [code.decodeAll_some hd, code.decodeAll_some (code.decode_append hd later), hrest]
      rfl

theorem decodeAll_encode (payloads : List α) (rest : List β) (hv : ∀ a ∈ payloads, code.Valid a) :
    code.decodeAll (payloads.flatMap code.encode ++ rest) =
      (payloads ++ (code.decodeAll rest).1, (code.decodeAll rest).2) := by
  induction payloads with
  | nil => rfl
  | cons a payloads ih =>
    have hd := code.decode_encode a (payloads.flatMap code.encode ++ rest) (hv a (by simp))
    rw [List.flatMap_cons, List.append_assoc, code.decodeAll_some hd,
      ih fun b hb => hv b (by simp [hb])]
    rfl

/-- The bytes consumed are exactly the blocks of the payloads returned, and no
complete block is left. -/
theorem decodeAll_sound (bytes : List β) :
    bytes = (code.decodeAll bytes).1.flatMap code.encode ++ (code.decodeAll bytes).2 ∧
      code.decode (code.decodeAll bytes).2 = none := by
  induction hn : bytes.length using Nat.strongRecOn generalizing bytes with
  | ind n ih =>
    cases hd : code.decode bytes with
    | none => simp [code.decodeAll_none hd, hd]
    | some split =>
      obtain ⟨a, rest⟩ := split
      obtain ⟨hbytes, hleft⟩ := ih rest.length (hn ▸ code.decode_shorter hd) rest rfl
      rw [code.decodeAll_some hd]
      refine ⟨?_, hleft⟩
      rw [List.flatMap_cons, List.append_assoc, ← hbytes]
      exact (code.decode_sound hd).2

theorem decodeAll_left (bytes : List β) :
    bytes.drop ((code.decodeAll bytes).1.flatMap code.encode).length = (code.decodeAll bytes).2 := by
  obtain ⟨hbytes, -⟩ := code.decodeAll_sound bytes
  generalize code.decodeAll bytes = decoded at hbytes ⊢
  rw [hbytes, List.drop_left]

/-- Every payload returned is one that has a block. -/
theorem decodeAll_valid (bytes : List β) : ∀ a ∈ (code.decodeAll bytes).1, code.Valid a := by
  induction hn : bytes.length using Nat.strongRecOn generalizing bytes with
  | ind n ih =>
    cases hd : code.decode bytes with
    | none => simp [code.decodeAll_none hd]
    | some split =>
      obtain ⟨a, rest⟩ := split
      intro b hb
      rw [code.decodeAll_some hd, List.mem_cons] at hb
      cases hb with
      | inl hfirst => exact hfirst ▸ (code.decode_sound hd).1
      | inr hlater => exact ih rest.length (hn ▸ code.decode_shorter hd) rest rfl b hlater

/-- One arrival: append the chunk to the buffer and split off complete blocks. -/
def feed (state : List α × List β) (chunk : List β) : List α × List β :=
  let (payloads, left) := code.decodeAll (state.2 ++ chunk)
  (state.1 ++ payloads, left)

/-- The cuts between arrivals are invisible. -/
theorem feed_foldl (chunks : List (List β)) :
    chunks.foldl code.feed ([], []) = code.decodeAll chunks.flatten := by
  induction chunks using List.reverseRecOn with
  | nil => rw [List.flatten_nil, decodeAll_nil]; rfl
  | append_singleton chunks chunk ih =>
    rw [List.foldl_append, ih, List.flatten_append, code.decodeAll_append]
    simp [feed]

end FrameCode

end CppCodes.Library
