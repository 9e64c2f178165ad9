import Mathlib.GroupTheory.Perm.Cycle.Basic

/-!
# Following links round a list

A partial function that leads from every element of a list to the one behind it, and from
the last to the first, is followed round and round the list.
-/

set_option autoImplicit false

namespace CppCodes.Library

variable {α : Type*}

/-- The places that so many steps from `x` come to, if all of them lead somewhere. -/
def follow (next : α → Option α) : Nat → α → Option (List α)
  | 0, _ => some []
  | steps + 1, x => do
      let y ← next x
      let path ← follow next steps y
      return y :: path

theorem follow_eq_pow {next : α → Option α} {p : Equiv.Perm α} {s : Set α}
    (links : ∀ x ∈ s, next x = some (p x)) (closed : ∀ x ∈ s, p x ∈ s) (steps : Nat) {x : α}
    (hx : x ∈ s) :
    follow next steps x = some ((List.range steps).map fun k => (p ^ (k + 1)) x) := by
  induction steps generalizing x with
  | zero => rfl
  | succ steps ih =>
    rw [follow, links x hx, List.range_succ_eq_map]
    simp [ih (closed x hx), Function.comp_def, pow_succ]

variable [DecidableEq α] {l : List α}

/-- One turn comes to every element once, wherever it begins. -/
theorem turn_eq_rotate (nodup : l.Nodup) {i : Nat} (hi : i < l.length) (turns : Nat) :
    (List.range l.length).map (fun k => (l.formPerm ^ (l.length * turns + k + 1)) l[i]) =
      l.rotate (i + 1) := by
  apply List.ext_getElem
  · simp
  · intro k hk hk'
    rw [List.getElem_map, List.getElem_range, List.formPerm_pow_apply_getElem l nodup _ i hi,
      List.getElem_rotate]
    congr 1
    have hturns : i + (l.length * turns + k + 1) = k + (i + 1) + l.length * turns := by omega
    rw [hturns, Nat.add_mul_mod_self_left]

/-- So many turns come to every element so many times. -/
theorem turns_perm (nodup : l.Nodup) {i : Nat} (hi : i < l.length) (turns : Nat) :
    ((List.range (l.length * turns)).map fun k => (l.formPerm ^ (k + 1)) l[i]).Perm
      (List.replicate turns l).flatten := by
  induction turns with
  | zero => simp
  | succ turns ih =>
    rw [Nat.mul_succ, List.range_add, List.map_append, List.map_map, List.replicate_succ',
      List.flatten_append, List.flatten_singleton]
    apply ih.append
    have hturn := turn_eq_rotate nodup hi turns
    rw [show ((fun k => (l.formPerm ^ (k + 1)) l[i]) ∘ fun k => l.length * turns + k) =
      fun k => (l.formPerm ^ (l.length * turns + k + 1)) l[i] from rfl, hturn]
    exact List.rotate_perm l (i + 1)

omit [DecidableEq α] in
theorem turns_congr {l l' : List α} (h : l.Perm l') (turns : Nat) :
    (List.replicate turns l).flatten.Perm (List.replicate turns l').flatten := by
  induction turns with
  | zero => exact List.Perm.refl _
  | succ turns ih =>
    rw [List.replicate_succ, List.replicate_succ, List.flatten_cons, List.flatten_cons]
    exact h.append ih

theorem follow_around (nodup : l.Nodup) {next : α → Option α}
    (links : ∀ x ∈ l, next x = some (l.formPerm x)) {x : α} (hx : x ∈ l) (turns : Nat) :
    ∃ path, follow next (l.length * turns) x = some path ∧
      path.Perm (List.replicate turns l).flatten := by
  obtain ⟨i, hi, rfl⟩ := List.getElem_of_mem hx
  have hfollow := follow_eq_pow (s := {y | y ∈ l}) links
    (fun y hy => List.formPerm_apply_mem_of_mem hy) (l.length * turns) hx
  exact ⟨_, hfollow, turns_perm nodup hi turns⟩

end CppCodes.Library
