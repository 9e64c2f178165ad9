import CppCodes.Library.UnorderedFold
import CppCodes.Source.PerfLab.Traversals

/-!
# The slow and the fast traversals do the same

The matrix has the same sum by rows and by columns, and the pages end as the same memory with
the same checksum in their order and shuffled, also where the two would leave the vector: one
does exactly if the other does. With the vectors the runs allocate neither does.
-/

set_option autoImplicit false

namespace CppCodes.Guarantees.TraversalOrder

open CppCodes.Library CppCodes.Source.PerfLab.Traversals

variable {a : List UInt32} {N pages n : Nat} {mem : List UInt8} {s : Touched}

/-! ## The matrix -/

theorem add_commute (a : List UInt32) : StepsCommute (add a) := by
  intro s k k'
  unfold add
  cases a[k]? with
  | none => cases a[k']? <;> rfl
  | some x =>
    cases a[k']? with
    | none => rfl
    | some y =>
      change some (s + x.toUInt64 + y.toUInt64) = some (s + y.toUInt64 + x.toUInt64)
      rw [UInt64.add_assoc, UInt64.add_comm x.toUInt64, ← UInt64.add_assoc]

/-- The index of an element of the matrix. -/
def cell (N i j : Nat) : Nat := (i * N + j) % 2 ^ 64

theorem row_pass (sum : UInt64) :
    (List.range N).foldlM (fun sum i =>
      let base := i * N % 2 ^ 64
      (List.range N).foldlM (fun sum j => add a sum ((base + j) % 2 ^ 64)) sum) sum =
    ((List.range N).flatMap fun i => (List.range N).map (cell N i)).foldlM (add a) sum := by
  rw [← foldlM_nested]
  congr 1
  funext sum i
  rw [List.foldlM_map]
  dsimp only
  congr 1
  funext sum j
  rw [cell, Nat.mod_add_mod]

theorem column_pass (sum : UInt64) :
    (List.range N).foldlM (fun sum j =>
      (List.range N).foldlM (fun sum i => add a sum ((i * N + j) % 2 ^ 64)) sum) sum =
    ((List.range N).flatMap fun j => (List.range N).map fun i => cell N i j).foldlM (add a) sum := by
  rw [← foldlM_nested]
  congr 1
  funext sum j
  rw [List.foldlM_map]
  rfl

theorem colMajor_eq_rowMajor (a : List UInt32) (N iters : Nat) :
    colMajor a N iters = rowMajor a N iters := by
  unfold colMajor rowMajor
  congr 1
  funext sum it
  rw [row_pass, column_pass]
  exact (add_commute a).foldlM_perm (flatMap_map_perm _ _ fun j i => cell N i j) sum

def total (a : List UInt32) : Nat := (a.map UInt32.toNat).sum

theorem foldl_add (a : List UInt32) (m : Nat) :
    a.foldl (fun sum x => sum + x.toUInt64) (UInt64.ofNat m) = UInt64.ofNat (m + total a) := by
  induction a generalizing m with
  | nil => rfl
  | cons x a ih =>
    have hx : UInt64.ofNat m + x.toUInt64 = UInt64.ofNat (m + x.toNat) := by
      rw [UInt64.ofNat_add]
      congr 1
      rw [← UInt64.toNat_inj]
      simp
    rw [List.foldl_cons, hx, ih]
    congr 1
    simp [total, Nat.add_assoc]

theorem foldlM_add (a : List UInt32) (m : Nat) :
    (List.range a.length).foldlM (add a) (UInt64.ofNat m) = some (UInt64.ofNat (m + total a)) := by
  have hadd : add a = fun s k => (a[k]?).bind fun x => some (s + x.toUInt64) := by
    funext s k
    unfold add
    cases a[k]? <;> rfl
  rw [hadd, foldlM_range a a.length le_rfl, List.take_length, foldlM_some, foldl_add]

/-- No index wraps around or leaves the matrix. -/
theorem row_indices (hN : N < 2 ^ 32) :
    ((List.range N).flatMap fun i => (List.range N).map (cell N i)) = List.range (N * N) := by
  rw [← range_mul]
  refine List.flatMap_congr fun i hi => List.map_congr_left fun j hj => ?_
  rw [List.mem_range] at hi hj
  have hrow : (i + 1) * N ≤ N * N := Nat.mul_le_mul_right N hi
  have hsize : N * N ≤ 2 ^ 32 * 2 ^ 32 := Nat.mul_le_mul hN.le hN.le
  rw [Nat.succ_mul] at hrow
  exact Nat.mod_eq_of_lt (by omega)

theorem rowMajor_total (hN : N < 2 ^ 32) (hlength : a.length = N * N) (iters : Nat) :
    rowMajor a N iters = some (UInt64.ofNat (iters * total a)) := by
  unfold rowMajor
  induction iters with
  | zero => simp
  | succ iters ih =>
    rw [foldlM_passes_succ, ih, Option.bind_some, row_pass, row_indices hN, ← hlength, foldlM_add,
      Nat.succ_mul]

/-! ## The pages -/

theorem touch_commute : StepsCommute touch := by
  intro s p q
  unfold touch
  dsimp only
  generalize p * page % 2 ^ 64 = i
  generalize q * page % 2 ^ 64 = j
  by_cases hij : i = j
  · rw [hij]
  · cases hi : s.mem[i]? with
    | none =>
      cases hj : s.mem[j]? with
      | none => rfl
      | some y => simp [List.getElem?_set_ne (Ne.symm hij), hi]
    | some x =>
      cases hj : s.mem[j]? with
      | none => simp [List.getElem?_set_ne hij, hj]
      | some y =>
        simp only [Option.map_some, Option.bind_some, List.getElem?_set_ne hij,
          List.getElem?_set_ne (Ne.symm hij), hi, hj]
        rw [List.set_comm _ _ hij, UInt64.add_assoc, UInt64.add_comm (x + 1).toUInt64,
          ← UInt64.add_assoc]

theorem faultBad_eq_faultGood {idx : List Nat} (hidx : idx.Perm (List.range pages)) (mem : List UInt8)
    (iters : Nat) : faultBad mem idx pages iters = faultGood mem pages iters := by
  have hlength : idx.length = pages := by rw [hidx.length_eq, List.length_range]
  unfold faultBad faultGood
  congr 1
  funext s it
  rw [foldlM_range idx pages hlength.ge, List.take_of_length_le hlength.le]
  exact touch_commute.foldlM_perm hidx s

/-- Every page begins with the same octet. -/
def Even (pages : Nat) (c : UInt8) (mem : List UInt8) : Prop :=
  mem.length = pages * page ∧ ∀ p < pages, mem[p * page]? = some c

theorem toUInt64_eq (x : UInt8) : x.toUInt64 = UInt64.ofNat x.toNat := by
  rw [← UInt64.toNat_inj]
  simp

/-- Within a pass the first `n` pages are one ahead of the others. -/
theorem touch_pages {c : UInt8} (hsize : pages * page < 2 ^ 64) (h : Even pages c s.mem) (hn : n ≤ pages) :
    ∃ mem, (List.range n).foldlM touch s = some { mem, acc := s.acc + UInt64.ofNat (n * (c + 1).toNat) } ∧
      mem.length = pages * page ∧
      ∀ p < pages, mem[p * page]? = some (if p < n then c + 1 else c) := by
  induction n with
  | zero => exact ⟨s.mem, by simp, h.1, by simpa using h.2⟩
  | succ n ih =>
    obtain ⟨mem, hpass, hlength, hpages⟩ := ih (Nat.le_of_lt hn)
    have hoff : n * page < pages * page := Nat.mul_lt_mul_of_pos_right hn (by decide)
    have hn' := hpages n hn
    rw [if_neg (Nat.lt_irrefl n)] at hn'
    refine ⟨mem.set (n * page) (c + 1), ?_, by rw [List.length_set, hlength], ?_⟩
    · rw [List.range_succ, List.foldlM_append, hpass]
      simp only [Option.bind_eq_bind, Option.bind_some, List.foldlM_cons, List.foldlM_nil, touch,
        Nat.mod_eq_of_lt (hoff.trans hsize), hn', Option.map_some, Option.pure_def]
      rw [UInt64.add_assoc, toUInt64_eq, ← UInt64.ofNat_add, Nat.succ_mul]
    · intro p hp
      by_cases hpn : p = n
      · subst hpn
        rw [List.getElem?_set_self (by omega), if_pos (Nat.lt_succ_self p)]
      · have hne : n * page ≠ p * page := by
          intro he
          exact hpn (Nat.eq_of_mul_eq_mul_right (by decide) he).symm
        rw [List.getElem?_set_ne hne, hpages p hp]
        congr 1
        by_cases hlt : p < n
        · rw [if_pos hlt, if_pos (Nat.lt_succ_of_lt hlt)]
        · rw [if_neg hlt, if_neg (by omega)]

/-- A pass adds the number of the pass, as an octet, for each page. -/
def checksum (pages : Nat) : Nat → Nat
  | 0 => 0
  | iters + 1 => checksum pages iters + pages * ((iters + 1) % 256)

theorem faultGood_checksum (hsize : pages * page < 2 ^ 64) (iters : Nat) :
    ∃ mem, faultGood (List.replicate (pages * page) 0) pages iters =
        some { mem, acc := UInt64.ofNat (checksum pages iters) } ∧
      Even pages (UInt8.ofNat iters) mem := by
  unfold faultGood
  induction iters with
  | zero =>
    refine ⟨_, rfl, by simp, fun p hp => ?_⟩
    have hin : p * page < pages * page := Nat.mul_lt_mul_of_pos_right hp (by decide)
    rw [List.getElem?_replicate, if_pos hin]
    rfl
  | succ iters ih =>
    obtain ⟨mem, hrun, heven⟩ := ih
    obtain ⟨mem', hpass, hlength, hpages⟩ := touch_pages
      (s := { mem, acc := UInt64.ofNat (checksum pages iters) }) hsize heven le_rfl
    have hoctet : UInt8.ofNat iters + 1 = UInt8.ofNat (iters + 1) := by
      rw [UInt8.ofNat_add]
      rfl
    refine ⟨mem', ?_, hlength, fun p hp => ?_⟩
    · rw [foldlM_passes_succ, hrun, Option.bind_some, hpass, hoctet, UInt8.toNat_ofNat', checksum,
        UInt64.ofNat_add]
    · rw [hpages p hp, if_pos hp, hoctet]

/-- For every matrix and every memory the two variants are the same function, failures included.
A matrix of the allocated size is summed up entirely, once for each iteration, and the pages of
a fresh memory all end with the number of iterations. -/
theorem traversals_agree :
    (∀ a N iters, colMajor a N iters = rowMajor a N iters) ∧
      (∀ a N iters, N < 2 ^ 32 → a.length = N * N →
        rowMajor a N iters = some (UInt64.ofNat (iters * (a.map UInt32.toNat).sum))) ∧
      (∀ mem idx pages iters, idx.Perm (List.range pages) →
        faultBad mem idx pages iters = faultGood mem pages iters) ∧
      ∀ pages iters, pages * page < 2 ^ 64 →
        ∃ mem, faultGood (List.replicate (pages * page) 0) pages iters =
            some { mem, acc := UInt64.ofNat (checksum pages iters) } ∧
          Even pages (UInt8.ofNat iters) mem := by
  refine ⟨colMajor_eq_rowMajor, ?_, ?_, ?_⟩
  · intro a N iters hN hlength
    exact rowMajor_total hN hlength iters
  · intro mem idx pages iters hidx
    exact faultBad_eq_faultGood hidx mem iters
  · intro pages iters hsize
    exact faultGood_checksum hsize iters

end CppCodes.Guarantees.TraversalOrder
