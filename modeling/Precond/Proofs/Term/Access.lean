import Precond.Proofs.Term.Operators
import Precond.Term.Access

/-! Reads and writes of memory on terms give terms whose values are what reads and writes of lifted
code make of the values: `load_value` and `storeWord_value`. A word is the number whose digits are
the numbers in its cells. -/

namespace Precond.Term

open IR

variable {m : Model} {a c w : Nat}

theorem cellCount_ok {size n : Int} (h : cellCount c size = .ok n) :
    Value.cellCount? c size = some n.toNat ∧ c * n = size := by
  unfold cellCount at h
  split at h
  · rename_i hs
    cases h
    exact ⟨if_pos hs, Int.mul_ediv_cancel' (Int.dvd_of_emod_eq_zero hs)⟩
  · cases h

theorem offset_bits (x : Term (.bv a)) (i : Nat) :
    (offset x i).bits m = x.bits m + BitVec.ofNat a i := by
  unfold offset
  split
  · rename_i hi
    rw [hi]
    exact (BitVec.add_zero _).symm
  · rw [Spine.bits_bin, Spine.bits_numeral, BitVec.ofInt_natCast]
    rfl

/-! ### Reads -/

theorem concat_toNat {v : Nat} (x : BitVec w) (y : BitVec v) :
    (x ++ y).toNat = x.toNat * 2 ^ v + y.toNat := by
  rw [BitVec.toNat_append, ← Nat.shiftLeft_add_eq_or_of_lt y.isLt, Nat.shiftLeft_eq]

/-- The number of a concatenation has the numbers of its parts for digits. -/
theorem concatAll_bits {x : Term (.bv w)} {ys : List (Term (.bv c))} {t : SomeTerm}
    (h : concatAll ⟨_, x⟩ (ys.map fun y => ⟨_, y⟩) = .ok t) (m : Model) :
    ∃ z : BitVec (w + c * ys.length), t.value m = .word z ∧
      z.toNat = ys.foldl (fun n y => n * 2 ^ c + (y.bits m).toNat) (x.bits m).toNat := by
  induction ys generalizing w x with
  | nil =>
    cases h
    exact ⟨x.bits m, rfl, rfl⟩
  | cons y ys ih =>
    obtain ⟨z, hz, hn⟩ := ih (x := x.concat y) h
    refine ⟨z.cast (by rw [List.length_cons, Nat.mul_succ]; omega), ?_, ?_⟩
    · rw [hz]
      exact Value.word_ext (by rw [List.length_cons, Nat.mul_succ]; omega)
        (BitVec.toNat_cast ..).symm
    · rw [BitVec.toNat_cast, hn, List.foldl_cons, Spine.bits_concat, concat_toNat]

theorem foldl_digits (b : Nat) (digits : List Nat) :
    digits.foldl (fun n d => n * b + d) 0 = Nat.ofDigits b digits.reverse := by
  rw [Nat.ofDigits_eq_foldr, List.foldl_eq_foldr_reverse]
  congr 1
  funext d n
  rw [Nat.cast_id, Nat.mul_comm, Nat.add_comm]

theorem load?_eq {size : Int} {n : Nat} (endian : Endian) (cells : Memory a c) (x : BitVec a)
    (hn : Value.cellCount? c size = some n) (h0 : n ≠ 0) :
    Value.load? endian size (.memory cells) (.word x) = some (.word (.ofNat size.toNat
      (Nat.ofDigits (2 ^ c) (Value.inOrder endian (Value.cellsAt cells x n))))) := by
  simp only [Value.load?, Value.memory, Value.word, hn, Option.bind_eq_bind, Option.bind_some,
    dite_true, if_neg h0, Option.pure_def]

/-- The word that is read from a list of cells, the high end first. -/
theorem readCells_value (ordered : List (Term (.bv c))) {t : SomeTerm}
    (h : (match ordered.map (fun x => (⟨_, x⟩ : SomeTerm)) with
      | [] => throw Fault.illSorted
      | x :: xs => concatAll x xs) = .ok t) (m : Model) :
    ordered ≠ [] ∧ t.value m = .word (.ofNat (c * ordered.length)
      (Nat.ofDigits (2 ^ c) (ordered.map fun x => (x.bits m).toNat).reverse)) := by
  cases ordered with
  | nil => cases h
  | cons x xs =>
    obtain ⟨z, hz, hn⟩ := concatAll_bits h m
    refine ⟨List.cons_ne_nil _ _, hz.trans (Value.word_ext ?_ ?_)⟩
    · rw [List.length_cons, Nat.mul_succ, Nat.add_comm]
    · rw [← foldl_digits, List.foldl_map, List.foldl_cons, Nat.zero_mul, Nat.zero_add, ← hn,
        BitVec.toNat_ofNat, List.length_cons, Nat.mul_succ, Nat.add_comm _ c,
        Nat.mod_eq_of_lt z.isLt]

theorem load_value {mem addr t : SomeTerm} {size : Int} {endian : Endian}
    (h : load mem addr size endian = .ok t) (m : Model) :
    Value.load? endian size (mem.value m) (addr.value m) = some (t.value m) := by
  obtain ⟨⟨a, c, mem⟩, hmem, h⟩ := bind_eq_ok h
  obtain ⟨n, hn, h⟩ := bind_eq_ok h
  obtain ⟨_, -, h⟩ := bind_eq_ok h
  obtain ⟨x, hx, h⟩ := bind_eq_ok h
  obtain ⟨hcount, hsize⟩ := cellCount_ok hn
  rw [SomeTerm.memory_eq_ok hmem, SomeTerm.as_eq_ok hx]
  let cells : List (Term (.bv c)) := (List.range n.toNat).map fun i => select mem (offset x i)
  have hcells : cells.map (fun y => (y.bits m).toNat) =
      Value.cellsAt (mem.cells m) (x.bits m) n.toNat := by
    simp only [cells, List.map_map, Value.cellsAt]
    refine List.map_congr_left fun i _ => ?_
    exact congrArg BitVec.toNat (congrArg _ (offset_bits x i))
  have hlen : cells.length = n.toNat := by simp [cells]
  obtain ⟨ordered, hne, hl, ho, ht⟩ : ∃ ordered : List (Term (.bv c)), ordered ≠ [] ∧
      ordered.length = n.toNat ∧ (ordered.map fun y => (y.bits m).toNat).reverse =
        Value.inOrder endian (Value.cellsAt (mem.cells m) (x.bits m) n.toNat) ∧
      t.value m = .word (.ofNat (c * ordered.length)
        (Nat.ofDigits (2 ^ c) (ordered.map fun y => (y.bits m).toNat).reverse)) := by
    cases endian with
    | little =>
      obtain ⟨hne, ht⟩ := readCells_value cells.reverse
        (by rw [List.map_reverse, List.map_map]; exact h) m
      refine ⟨cells.reverse, hne, by rw [List.length_reverse, hlen], ?_, ht⟩
      rw [List.map_reverse, List.reverse_reverse, hcells]
      rfl
    | big =>
      obtain ⟨hne, ht⟩ := readCells_value cells (by rw [List.map_map]; exact h) m
      refine ⟨cells, hne, hlen, ?_, ht⟩
      rw [hcells]
      rfl
  have h0 : n.toNat ≠ 0 := fun h0 => hne (List.length_eq_zero_iff.mp (hl.trans h0))
  refine (load?_eq endian (mem.cells m) (x.bits m) hcount h0).trans ?_
  rw [ht, ho, hl, show size.toNat = c * n.toNat by
    rw [← hsize, Int.toNat_mul (by omega) (by omega), Int.toNat_natCast]]

/-! ### Writes -/

theorem mapM_map_eq {α β γ : Type} {f : α → Except Fault β} {g : α → γ} {k : β → γ}
    (H : ∀ x y, f x = .ok y → k y = g x) {xs : List α} {ys : List β} (h : xs.mapM f = .ok ys) :
    ys.map k = xs.map g := by
  induction xs generalizing ys with
  | nil => cases h; rfl
  | cons x xs ih =>
    rw [List.mapM_cons] at h
    obtain ⟨y, hy, h⟩ := bind_eq_ok h
    obtain ⟨ys, hys, h⟩ := bind_eq_ok h
    cases h
    rw [List.map_cons, List.map_cons, H x y hy, ih hys]

theorem storeCells_cells (x : Term (.bv a)) (i : Nat) (vs : List (Term (.bv c)))
    (mem : Term (.mem a c)) : (storeCells x i vs mem).cells m =
      Value.writeCells (x.bits m) i (vs.map fun v => v.bits m) (mem.cells m) := by
  induction vs generalizing i mem with
  | nil => rfl
  | cons v vs ih =>
    rw [storeCells, ih, Spine.cells_store, offset_bits]
    rfl

theorem inOrder_range {α : Type} (f : Nat → α) (n : Nat) (endian : Endian) :
    Value.inOrder endian ((List.range n).map f) =
      (List.range n).map fun i => f (match endian with
        | .little => i
        | .big => n - 1 - i) := by
  cases endian with
  | little => rfl
  | big =>
    refine List.ext_getElem (by simp [Value.inOrder]) fun i h1 h2 => ?_
    simp [Value.inOrder]

theorem pieces_bits {v : Term (.bv w)} {n : Nat} {endian : Endian} {cells : List (Term (.bv c))}
    (h : pieces c ⟨_, v⟩ w n endian = .ok cells) (hw : w = c * n) :
    cells.map (fun y => y.bits m) = Value.inOrder endian (Value.cellsOf c (v.bits m) n) := by
  unfold pieces at h
  rw [Value.cellsOf, inOrder_range]
  split at h
  · rename_i hn
    obtain ⟨y, hy, h⟩ := bind_eq_ok h
    cases h
    cases SomeTerm.as_eq_ok hy
    rw [hn]
    refine congrArg (fun b => [b]) ?_
    cases endian <;> exact (by simp : y.bits m = (y.bits m).extractLsb' (0 * c) c)
  · obtain ⟨y, hy, h⟩ := bind_eq_ok h
    cases hy
    refine mapM_map_eq (fun i y hi => ?_) h
    obtain ⟨u, hu, hy⟩ := bind_eq_ok hi
    obtain ⟨hr, ht⟩ := extract_word hu m
    rw [SomeTerm.as_eq_ok hy, SomeTerm.value_word] at ht
    refine BitVec.eq_of_toNat_eq ?_
    rw [(Value.word_inj ht).2, BitVec.extractLsb'_toNat, BitVec.extractLsb'_toNat,
      ← (Value.word_inj ht).1]
    cases endian with
    | little => rfl
    | big =>
      have hlo : ((w : Int) - (i + 1) * c).toNat = (n - 1 - i) * c := by
        rw [show ((i : Int) + 1) * c = ((i + 1) * c : Nat) by push_cast; rfl, Nat.sub_sub,
          Nat.add_comm 1 i, Nat.sub_mul, Nat.mul_comm n c, ← hw]
        omega
      exact congrArg (fun k => (v.bits m).toNat >>> k % 2 ^ c) hlo

theorem store?_eq {size : Int} {n : Nat} (endian : Endian) (cells : Memory a c) (x : BitVec a)
    (v : BitVec w) (hn : Value.cellCount? c size = some n) (hw : size = w) :
    Value.store? endian size (.memory cells) (.word x) (.word v) =
      some (.memory (Value.writeCells x 0 (Value.inOrder endian (Value.cellsOf c v n)) cells)) := by
  simp only [Value.store?, Value.memory, Value.word, hn, Option.bind_eq_bind, Option.bind_some,
    dite_true, if_pos hw, Option.pure_def]

theorem storeWord_value {mem addr value t : SomeTerm} {size : Int} {endian : Endian}
    (h : storeWord mem addr value size endian = .ok t) (m : Model) :
    Value.store? endian size (mem.value m) (addr.value m) (value.value m) = some (t.value m) := by
  obtain ⟨⟨a, c, mem⟩, hmem, h⟩ := bind_eq_ok h
  obtain ⟨n, hn, h⟩ := bind_eq_ok h
  obtain ⟨_, -, h⟩ := bind_eq_ok h
  obtain ⟨⟨w, v⟩, hv, h⟩ := bind_eq_ok h
  obtain ⟨hcount, hsize⟩ := cellCount_ok hn
  dsimp only at h
  split at h
  · cases h
  rename_i hw
  obtain ⟨x, hx, h⟩ := bind_eq_ok h
  obtain ⟨cells, hcells, h⟩ := bind_eq_ok h
  cases h
  have hwn : w = c * n.toNat := by
    have hcn : (c : Int) * n = w := hsize.trans (not_not.mp hw)
    rcases Int.le_total 0 n with h0 | h0
    · rw [← Int.toNat_of_nonneg h0] at hcn
      exact_mod_cast hcn.symm
    · have hle : (c : Int) * n ≤ 0 := Int.mul_nonpos_of_nonneg_of_nonpos (by omega) h0
      rw [Int.toNat_eq_zero.mpr h0, Nat.mul_zero]
      omega
  rw [SomeTerm.memory_eq_ok hmem, SomeTerm.as_eq_ok hx, SomeTerm.word_eq_ok hv]
  refine (store?_eq endian (mem.cells m) (x.bits m) (v.bits m) hcount (not_not.mp hw)).trans ?_
  rw [← pieces_bits hcells hwn, ← storeCells_cells]
  rfl

end Precond.Term
