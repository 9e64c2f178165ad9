import CppCodes.Library.Orbit
import CppCodes.Source.PerfLab.PtrChase

/-!
# Pointer chasing does the work of the sequential walk

The links follow the permutation from entry to entry and from the last to the first, so
they are the permutation of the indices that turns round `perm`, one cycle. A chase of
`n * iters` steps turns round it `iters` times.
-/

set_option autoImplicit false

namespace CppCodes.Guarantees.PointerChase

open CppCodes.Library CppCodes.Source.PerfLab

variable {n i : Nat} {perm next : Vector32}

/-! ## The indices -/

theorem toNat_index (hn : n < 2 ^ 32) {i : Nat} (hi : i < n) : (UInt32.ofNat i).toNat = i :=
  UInt32.toNat_ofNat_of_lt' (Nat.lt_trans hi hn)

theorem mem_iota (hn : n < 2 ^ 32) (v : UInt32) : v ∈ iota n ↔ v.toNat < n := by
  simp only [iota, List.mem_map, List.mem_range]
  constructor
  · rintro ⟨i, hi, rfl⟩
    rwa [toNat_index hn hi]
  · intro hv
    exact ⟨v.toNat, hv, UInt32.ofNat_toNat⟩

theorem iota_nodup (hn : n < 2 ^ 32) : (iota n).Nodup := by
  apply List.Nodup.map_on
  · intro i hi j hj hij
    rw [List.mem_range] at hi hj
    have hnat := congrArg UInt32.toNat hij
    rwa [toNat_index hn hi, toNat_index hn hj] at hnat
  · exact List.nodup_range

/-- What the shuffle leaves. -/
structure Shuffled (n : Nat) (perm : Vector32) : Prop where
  positive : 1 ≤ n
  fits : n < 2 ^ 32
  perm : perm.Perm (iota n)

namespace Shuffled

variable (h : Shuffled n perm)

include h

theorem length : perm.length = n := by
  rw [h.perm.length_eq, iota, List.length_map, List.length_range]

theorem nodup : perm.Nodup := h.perm.nodup_iff.mpr (iota_nodup h.fits)

theorem mem_iff (v : UInt32) : v ∈ perm ↔ v.toNat < n :=
  h.perm.mem_iff.trans (mem_iota h.fits v)

theorem getElem_lt {i : Nat} (hi : i < perm.length) : perm[i].toNat < n :=
  (h.mem_iff perm[i]).mp (List.getElem_mem hi)

theorem toNat_ne {i j : Nat} (hi : i < perm.length) (hj : j < perm.length) (hij : i ≠ j) :
    perm[i].toNat ≠ perm[j].toNat := by
  intro hsame
  exact hij ((List.Nodup.getElem_inj_iff h.nodup).mp (UInt32.toNat_inj.mp hsame))

end Shuffled

/-! ## The links -/

/-- The entries of `perm` below `i` are linked to the ones behind them. -/
def LinkedBelow (perm next : Vector32) (i : Nat) : Prop :=
  ∀ j < i, ∀ (hj : j + 1 < perm.length), next[perm[j].toNat]? = some perm[j + 1]

theorem assign_eq {i x : UInt32} (h : i.toNat < next.length) :
    assign next i x = some (next.set i.toNat x) := if_pos h

/-- One link more leaves the others. -/
theorem LinkedBelow.set (linked : LinkedBelow perm next i) (h : Shuffled n perm)
    (hi : i < perm.length) (x : UInt32) : LinkedBelow perm (next.set perm[i].toNat x) i := by
  intro j hj hlt
  rw [List.getElem?_set_ne (h.toNat_ne hi (by omega) (by omega)), linked j hj hlt]

theorem link_spec (h : Shuffled n perm) {count : Nat} (hcount : i + count < n)
    (hlength : next.length = n) (linked : LinkedBelow perm next i) :
    ∃ next', link perm i count next = some next' ∧ next'.length = n ∧
      LinkedBelow perm next' (i + count) := by
  induction count generalizing i next with
  | zero => exact ⟨next, rfl, hlength, linked⟩
  | succ count ih =>
    have hlen := h.length
    have hi : i < perm.length := by omega
    have hi' : i + 1 < perm.length := by omega
    have hslot : perm[i].toNat < next.length := by
      rw [hlength]
      exact h.getElem_lt hi
    have hnext : LinkedBelow perm (next.set perm[i].toNat perm[i + 1]) (i + 1) := by
      intro j hj hlt
      rcases Nat.lt_or_eq_of_le (Nat.lt_succ_iff.mp hj) with hbelow | rfl
      · exact linked.set h hi _ j hbelow hlt
      · rw [List.getElem?_set_self hslot]
    obtain ⟨next', hlink, hlength', hbelow⟩ := ih (by omega)
      ((List.length_set ..).trans hlength) hnext
    refine ⟨next', ?_, hlength', ?_⟩
    · rw [link, List.getElem?_eq_getElem hi, List.getElem?_eq_getElem hi']
      simp only [Option.bind_eq_bind, Option.bind_some, assign_eq hslot]
      exact hlink
    · rwa [Nat.add_right_comm, Nat.add_assoc] at hbelow

/-- Every entry is linked to the one behind it, and the last to the first. -/
theorem buildNext_spec (h : Shuffled n perm) :
    ∃ next, buildNext n perm = some next ∧ next.length = n ∧
      ∀ v ∈ perm, next[v.toNat]? = some (perm.formPerm v) := by
  have hpositive := h.positive
  have hlen := h.length
  have hstart : LinkedBelow perm (List.replicate n 0) 0 := fun j hj => absurd hj (Nat.not_lt_zero j)
  have hcount : 0 + (n - 1) < n := by omega
  obtain ⟨chain, hlink, hlength, hbelow⟩ := link_spec h hcount List.length_replicate hstart
  rw [Nat.zero_add] at hbelow
  have hlast : n - 1 < perm.length := by omega
  have hfirst : 0 < perm.length := by omega
  have hslot : perm[n - 1].toNat < chain.length := by
    rw [hlength]
    exact h.getElem_lt hlast
  refine ⟨chain.set perm[n - 1].toNat perm[0], ?_, (List.length_set ..).trans hlength, ?_⟩
  · simp only [buildNext, hlink, Option.bind_eq_bind, Option.bind_some,
      List.getElem?_eq_getElem hlast, List.getElem?_eq_getElem hfirst]
    exact assign_eq hslot
  · intro v hv
    obtain ⟨i, hi, rfl⟩ := List.getElem_of_mem hv
    rw [List.formPerm_apply_getElem perm h.nodup i hi]
    by_cases hend : i + 1 < perm.length
    · rw [hbelow.set h hlast _ i (by omega) hend]
      simp only [Nat.mod_eq_of_lt hend]
    · obtain rfl : i = n - 1 := by omega
      have hwrap : (n - 1 + 1) % perm.length = 0 := by
        rw [hlen, Nat.sub_add_cancel hpositive, Nat.mod_self]
      rw [List.getElem?_set_self hslot]
      simp only [hwrap]

/-! ## The sums -/

/-- `acc += idx` -/
def add (acc : UInt64) (idx : UInt32) : UInt64 := acc + idx.toUInt64

instance : RightCommutative add where
  right_comm acc x y := by
    rw [add, add, add, add, UInt64.add_assoc, UInt64.add_comm x.toUInt64, ← UInt64.add_assoc]

/-- The index after each step of the chase. -/
def visits (next : Vector32) (steps : Nat) : Option (List UInt32) :=
  follow (fun v => next[v.toNat]?) steps 0

theorem chase_eq (next : Vector32) (steps : Nat) (idx : UInt32) (acc : UInt64) :
    chase next steps idx acc =
      (follow (fun v => next[v.toNat]?) steps idx).map fun path => path.foldl add acc := by
  induction steps generalizing idx acc with
  | zero => rfl
  | succ steps ih =>
    rw [chase, follow]
    cases next[idx.toNat]? with
    | none => rfl
    | some v =>
      simp only [Option.bind_eq_bind, Option.bind_some, ih]
      cases follow (fun v => next[v.toNat]?) steps v with
      | none => rfl
      | some path => rfl

/-- `ptr_chase` adds up what it visits. -/
theorem ptrChase_eq (next : Vector32) (steps : Nat) :
    ptrChase next steps = (visits next steps).map fun path => path.foldl add 0 :=
  chase_eq next steps 0 0

theorem walkOnce_eq {count : Nat} (h : i + count ≤ next.length) (acc : UInt64) :
    walkOnce next i count acc = some (((next.drop i).take count).foldl add acc) := by
  induction count generalizing i acc with
  | zero => simp [walkOnce]
  | succ count ih =>
    have hi : i < next.length := by omega
    rw [walkOnce, List.getElem?_eq_getElem hi, Option.bind_eq_bind, Option.bind_some,
      ih (by omega), List.drop_eq_getElem_cons hi, List.take_succ_cons, List.foldl_cons]
    rfl

theorem walk_eq (hlength : next.length = n) (iters : Nat) (acc : UInt64) :
    walk next n iters acc = some ((List.replicate iters next).flatten.foldl add acc) := by
  induction iters generalizing acc with
  | zero => rfl
  | succ iters ih =>
    rw [walk, walkOnce_eq (by omega), Option.bind_eq_bind, Option.bind_some, ih, List.drop_zero,
      List.take_of_length_le (by omega), List.replicate_succ, List.flatten_cons, List.foldl_append]

/-- The links are the entries of `perm`. -/
theorem next_perm (h : Shuffled n perm) (hlength : next.length = n)
    (links : ∀ v ∈ perm, next[v.toNat]? = some (perm.formPerm v)) : next.Perm perm := by
  have hnext : next = (iota n).map perm.formPerm := by
    apply List.ext_getElem?
    intro i
    by_cases hi : i < n
    · have hmem : UInt32.ofNat i ∈ perm := by
        rw [h.mem_iff, toNat_index h.fits hi]
        exact hi
      have hlink := links _ hmem
      rw [toNat_index h.fits hi] at hlink
      rw [hlink, iota, List.map_map, List.getElem?_map, List.getElem?_range hi]
      rfl
    · rw [List.getElem?_eq_none (by omega), List.getElem?_eq_none (by simp [iota]; omega)]
  have hrotate : perm.map perm.formPerm = perm.rotate 1 := by
    apply List.ext_getElem
    · simp
    · intro i hi hi'
      rw [List.getElem_map, List.getElem_rotate]
      exact List.formPerm_apply_getElem perm h.nodup i (by simpa using hi)
  rw [hnext]
  have hmap := (h.perm.map perm.formPerm).symm
  rw [hrotate] at hmap
  exact hmap.trans (List.rotate_perm perm 1)

/-- `run_ptr` links the indices to one cycle, whatever the shuffle has done. The chase
visits every index `iters` times, and its sum is that of the walk. -/
theorem chase_like_walk {n iters : Nat} {perm : Vector32} (h : Shuffled n perm)
    (hsteps : n * iters < 2 ^ 64) :
    ∃ next, buildNext n perm = some next ∧
      (∃ cycle : Equiv.Perm UInt32, cycle.IsCycleOn {v | v.toNat < n} ∧
        ∀ v : UInt32, v.toNat < n → next[v.toNat]? = some (cycle v)) ∧
      (∃ path, visits next (chaseSteps n iters) = some path ∧ path.length = n * iters ∧
        ∀ v : UInt32, v.toNat < n → path.count v = iters) ∧
      ∃ sum, randomChase next n iters = some sum ∧ seqWalk next n iters = some sum := by
  obtain ⟨next, hbuild, hlength, hlinks⟩ := buildNext_spec h
  have hindices : {v | v ∈ perm} = {v : UInt32 | v.toNat < n} := Set.ext h.mem_iff
  have hzero : (0 : UInt32) ∈ perm := (h.mem_iff 0).mpr h.positive
  obtain ⟨path, hpath, hturns⟩ := follow_around h.nodup hlinks hzero iters
  rw [h.length] at hpath
  have hcount : chaseSteps n iters = n * iters := Nat.mod_eq_of_lt hsteps
  refine ⟨next, hbuild, ⟨perm.formPerm, ?_, ?_⟩, ⟨path, ?_, ?_, ?_⟩, path.foldl add 0, ?_, ?_⟩
  · rw [← hindices]
    exact h.nodup.isCycleOn_formPerm
  · exact fun v hv => hlinks v ((h.mem_iff v).mpr hv)
  · rw [hcount]
    exact hpath
  · rw [hturns.length_eq]
    simp [h.length, Nat.mul_comm]
  · intro v hv
    rw [hturns.count_eq, List.count_flatten]
    simp [List.count_eq_one_of_mem h.nodup ((h.mem_iff v).mpr hv)]
  · rw [randomChase, ptrChase_eq, hcount, visits, hpath]
    rfl
  · have hsame : (List.replicate iters next).flatten.Perm path :=
      (turns_congr (next_perm h hlength hlinks) iters).trans hturns.symm
    rw [seqWalk, walk_eq hlength, hsame.foldl_eq]

/-- Three indices, shuffled to 2, 0, 1: the links 1, 2, 0 are followed round twice. -/
theorem chase_like_walk_three :
    buildNext 3 [2, 0, 1] = some [1, 2, 0] ∧
      ∃ path, visits [1, 2, 0] 6 = some path ∧ path.count 2 = 2 := by
  have hbuild : buildNext 3 [2, 0, 1] = some [1, 2, 0] := by decide
  have hshuffled : Shuffled 3 [2, 0, 1] := ⟨by decide, by decide, by decide⟩
  have hsteps : 3 * 2 < 2 ^ 64 := by decide
  obtain ⟨next, hnext, -, ⟨path, hpath, -, hcount⟩, -⟩ := chase_like_walk hshuffled hsteps
  rw [hbuild, Option.some.injEq] at hnext
  subst hnext
  exact ⟨hbuild, path, hpath, hcount 2 (by decide)⟩

end CppCodes.Guarantees.PointerChase
