import Precond.Proofs.Term.Success

/-! The laws of memory that is read and written by words of several cells: a word that was stored is
loaded again, other cells keep what they hold, and the two byte orders see one word in reverse:
`storeWord_laws`. Addresses wrap around, so that a word must not have more cells than there are
addresses. -/

namespace Precond

open IR

variable {a c w n : Nat}

namespace Value

/-- An address is one of `n` consecutive ones. -/
def Among (x : BitVec a) (n : Nat) (y : BitVec a) : Prop := ∃ i < n, y = x + BitVec.ofNat a i

/-- Two ranges of consecutive addresses have none in common. -/
def Apart (x : BitVec a) (n : Nat) (y : BitVec a) (k : Nat) : Prop :=
  ∀ z, Among x n z → ¬ Among y k z

/-! ### Cells -/

theorem add_ofNat_inj {x : BitVec a} {i j : Nat} (hi : i < 2 ^ a) (hj : j < 2 ^ a)
    (h : x + BitVec.ofNat a i = x + BitVec.ofNat a j) : i = j := by
  have hn := congrArg BitVec.toNat ((BitVec.add_right_inj x).mp h)
  rwa [BitVec.toNat_ofNat, BitVec.toNat_ofNat, Nat.mod_eq_of_lt hi, Nat.mod_eq_of_lt hj] at hn

theorem get_writeCells_of_ne {x y : BitVec a} {i : Nat} {vs : List (BitVec c)} {m : Memory a c}
    (h : ∀ j < vs.length, y ≠ x + BitVec.ofNat a (i + j)) :
    (writeCells x i vs m).get y = m.get y := by
  induction vs generalizing i m with
  | nil => rfl
  | cons v vs ih =>
    have hrest : ∀ j < vs.length, y ≠ x + BitVec.ofNat a (i + 1 + j) := fun j hj => by
      rw [Nat.add_assoc, Nat.add_comm 1 j]
      exact h (j + 1) (Nat.succ_lt_succ hj)
    rw [writeCells, ih hrest]
    exact Memory.get_set_of_ne m v (h 0 (Nat.succ_pos _))

theorem get_writeCells {x : BitVec a} {i j : Nat} {vs : List (BitVec c)} {m : Memory a c}
    (hfits : i + vs.length ≤ 2 ^ a) (hj : j < vs.length) :
    (writeCells x i vs m).get (x + BitVec.ofNat a (i + j)) = vs[j] := by
  induction vs generalizing i j m with
  | nil => cases hj
  | cons v vs ih =>
    rw [List.length_cons] at hfits hj
    rw [writeCells]
    cases j with
    | zero =>
      -- later cells are other ones, since there are enough addresses
      refine (get_writeCells_of_ne fun j hj he => ?_).trans (Memory.get_set_self m _ v)
      have hij := add_ofNat_inj (by omega) (by omega) he
      omega
    | succ j =>
      rw [List.getElem_cons_succ, ← ih (i := i + 1) (by omega) (Nat.lt_of_succ_lt_succ hj),
        Nat.add_assoc i 1 j, Nat.add_comm 1 j]

theorem cellsAt_writeCells {x : BitVec a} {vs : List (BitVec c)} {m : Memory a c}
    (hfits : vs.length ≤ 2 ^ a) :
    cellsAt (writeCells x 0 vs m) x vs.length = vs.map BitVec.toNat := by
  refine List.ext_getElem (by simp [cellsAt]) fun i h1 h2 => ?_
  have hi : i < vs.length := by simpa using h2
  have hget := get_writeCells (x := x) (m := m) (i := 0) (by omega) hi
  rw [Nat.zero_add] at hget
  simp only [cellsAt, List.getElem_map, List.getElem_range, hget]

theorem cellsAt_writeCells_of_apart {x y : BitVec a} {vs : List (BitVec c)} {m : Memory a c}
    (h : Apart x vs.length y n) : cellsAt (writeCells x 0 vs m) y n = cellsAt m y n := by
  refine List.map_congr_left fun i hi => congrArg BitVec.toNat (get_writeCells_of_ne ?_)
  intro j hj he
  rw [Nat.zero_add] at he
  exact h _ ⟨j, hj, he⟩ ⟨i, List.mem_range.mp hi, rfl⟩

/-! ### The cells of a word -/

theorem length_cellsOf (v : BitVec w) : (cellsOf c v n).length = n := by simp [cellsOf]

theorem length_inOrder {α : Type} (endian : Endian) (cells : List α) :
    (inOrder endian cells).length = cells.length := by
  cases endian <;> simp [inOrder]

theorem inOrder_inOrder {α : Type} (endian : Endian) (cells : List α) :
    inOrder endian (inOrder endian cells) = cells := by
  cases endian <;> simp [inOrder]

theorem inOrder_map {α β : Type} (f : α → β) (endian : Endian) (cells : List α) :
    inOrder endian (cells.map f) = (inOrder endian cells).map f := by
  cases endian <;> simp [inOrder]

/-- The cells of a word are its digits. -/
theorem ofDigits_cellsOf (v : BitVec w) (n : Nat) :
    Nat.ofDigits (2 ^ c) ((cellsOf c v n).map BitVec.toNat) = v.toNat % 2 ^ (n * c) := by
  induction n with
  | zero => simp [cellsOf, Nat.mod_one]
  | succ n ih =>
    have hcells : cellsOf c v (n + 1) = cellsOf c v n ++ [v.extractLsb' (n * c) c] := by
      simp [cellsOf, List.range_succ]
    rw [hcells, List.map_append, Nat.ofDigits_append, ih, List.length_map, length_cellsOf,
      List.map_singleton, Nat.ofDigits_singleton, BitVec.extractLsb'_toNat, Nat.shiftRight_eq_div_pow,
      ← Nat.pow_mul, Nat.mul_comm c n, Nat.succ_mul, Nat.pow_add, Nat.mod_mul]

theorem cellsOf_ofDigits (hc : 0 < c) {digits : List Nat} (h : ∀ d ∈ digits, d < 2 ^ c) :
    (cellsOf c (BitVec.ofNat (digits.length * c) (Nat.ofDigits (2 ^ c) digits))
      digits.length).map BitVec.toNat = digits := by
  have hb : 1 < 2 ^ c := Nat.one_lt_two_pow hc.ne'
  have hsmall : Nat.ofDigits (2 ^ c) digits < 2 ^ (digits.length * c) := by
    rw [Nat.mul_comm, Nat.pow_mul]
    exact Nat.ofDigits_lt_base_pow_length hb h
  refine Nat.ofDigits_inj_of_len_eq hb ?_ ?_ h ?_
  · rw [List.length_map, length_cellsOf]
  · intro d hd
    obtain ⟨x, -, rfl⟩ := List.mem_map.mp hd
    exact x.isLt
  · rw [ofDigits_cellsOf, BitVec.toNat_ofNat, Nat.mod_mod, Nat.mod_eq_of_lt hsmall]

theorem lt_of_mem_cellsAt {m : Memory a c} {x : BitVec a} :
    ∀ d ∈ cellsAt m x n, d < 2 ^ c := by
  intro d hd
  obtain ⟨i, -, rfl⟩ := List.mem_map.mp hd
  exact BitVec.isLt _

end Value

namespace Term

open Value

variable {m : Model}

/-! ### Loads -/

/-- The word in `n` cells. -/
def wordAt (endian : Endian) (size : Int) (cells : Memory a c) (x : BitVec a) (n : Nat) :
    BitVec size.toNat :=
  .ofNat _ (Nat.ofDigits (2 ^ c) (inOrder endian (cellsAt cells x n)))

/-- What a load gives in a model: the word in its cells, where it takes a positive number of
cells. -/
theorem load_in (mem : Term (.mem a c)) (addr : Term (.bv a)) (size : Int) (endian : Endian)
    (m : Model) : (load ⟨_, mem⟩ ⟨_, addr⟩ size endian).map (·.value m) =
      if size % c = 0 then
        if (size / c).toNat = 0 then .error .illSorted
        else .ok (.word (wordAt endian size (mem.cells m) (addr.bits m) (size / c).toNat))
      else .error (.translation (.cellWidth size c)) := by
  split
  · rename_i hsize
    have hcount : cellCount c size = .ok (size / c) := if_pos hsize
    split
    · rename_i h0
      have hload : load ⟨_, mem⟩ ⟨_, addr⟩ size endian = .error .illSorted := by
        refine (bind_of_eq_ok rfl _).trans ((bind_of_eq_ok hcount _).trans ?_)
        refine (bind_of_eq_ok rfl _).trans ((bind_of_eq_ok (SomeTerm.as_self addr) _).trans ?_)
        rw [h0]
        cases endian <;> rfl
      rw [hload]
      rfl
    · rename_i h0
      have hdvd : (c : Int) ∣ size := Int.dvd_of_emod_eq_zero hsize
      have hpos : 0 < size := by
        have hc : c ≠ 0 := by
          rintro rfl
          simp at h0
        rw [← Int.mul_ediv_cancel' hdvd]
        exact Int.mul_pos (by omega) (by omega)
      obtain ⟨t, ht⟩ := load_sorted mem addr endian hpos hdvd
      have hv := load_value ht m
      rw [ht]
      refine congrArg Except.ok (Option.some_injective _ (hv.symm.trans ?_))
      exact load?_eq endian _ _ (if_pos hsize) h0
  · rename_i hsize
    have hload : load ⟨_, mem⟩ ⟨_, addr⟩ size endian =
        .error (.translation (.cellWidth size c)) := by
      have hcount : cellCount c size = .error (.translation (.cellWidth size c)) := if_neg hsize
      refine (bind_of_eq_ok rfl _).trans ?_
      simp only [hcount]
      rfl
    rw [hload]
    rfl

/-- The load of a positive number of cells. -/
theorem load_cells (hc : 0 < c) (hn : 0 < n) (mem : Term (.mem a c)) (addr : Term (.bv a))
    (endian : Endian) (m : Model) :
    (load ⟨_, mem⟩ ⟨_, addr⟩ (n * c : Nat) endian).map (·.value m) =
      .ok (.word (BitVec.ofNat (n * c)
        (Nat.ofDigits (2 ^ c) (inOrder endian (cellsAt (mem.cells m) (addr.bits m) n))))) := by
  have hmod : ((n * c : Nat) : Int) % c = 0 := by
    rw [Nat.cast_mul]
    exact Int.mul_emod_left _ _
  have hdiv : (((n * c : Nat) : Int) / c).toNat = n := by
    rw [← Int.natCast_div, Int.toNat_natCast, Nat.mul_div_cancel _ hc]
  rw [load_in, if_pos hmod, hdiv, if_neg hn.ne']
  rfl

/-- Either byte order reads the cells of the other one in reverse. -/
theorem load_reversed (hc : 0 < c) (hn : 0 < n) (mem : Term (.mem a c)) (addr : Term (.bv a))
    (m : Model) : ∃ low high : BitVec (n * c),
      (load ⟨_, mem⟩ ⟨_, addr⟩ (n * c : Nat) .little).map (·.value m) = .ok (.word low) ∧
      (load ⟨_, mem⟩ ⟨_, addr⟩ (n * c : Nat) .big).map (·.value m) = .ok (.word high) ∧
      cellsOf c low n = (cellsOf c high n).reverse := by
  refine ⟨_, _, load_cells hc hn mem addr .little m, load_cells hc hn mem addr .big m, ?_⟩
  let cells := cellsAt (mem.cells m) (addr.bits m) n
  have hlen : cells.length = n := by simp [cells, cellsAt]
  have hsmall : ∀ d ∈ cells, d < 2 ^ c := lt_of_mem_cellsAt
  have hlow := cellsOf_ofDigits hc hsmall
  have hhigh := cellsOf_ofDigits hc fun d hd => hsmall d (List.mem_reverse.mp hd)
  rw [List.length_reverse] at hhigh
  rw [hlen] at hlow hhigh
  refine (List.map_inj_right fun _ _ => BitVec.eq_of_toNat_eq).mp ?_
  rw [List.map_reverse]
  exact hlow.trans (List.reverse_eq_iff.mp hhigh.symm)

/-! ### Stores -/

/-- The cells of a memory in which a word was stored. -/
theorem storeWord_cells (hc : 0 < c) (hn : 0 < n) (mem : Term (.mem a c)) (addr : Term (.bv a))
    (v : Term (.bv (n * c))) (endian : Endian) :
    ∃ stored : Term (.mem a c),
      storeWord ⟨_, mem⟩ ⟨_, addr⟩ ⟨_, v⟩ (n * c : Nat) endian = .ok ⟨_, stored⟩ ∧
        ∀ m : Model, stored.cells m = writeCells (addr.bits m) 0
          (inOrder endian (cellsOf c (v.bits m) n)) (mem.cells m) := by
  have hdvd : (c : Int) ∣ (n * c : Nat) := by
    rw [Nat.cast_mul]
    exact Int.dvd_mul_left _ _
  have hdiv : (((n * c : Nat) : Int) / c).toNat = n := by
    rw [← Int.natCast_div, Int.toNat_natCast, Nat.mul_div_cancel _ hc]
  obtain ⟨stored, hs⟩ := storeWord_sorted mem addr v endian (Nat.mul_pos hn hc) rfl hdvd
  refine ⟨stored, hs, fun m => ?_⟩
  have hv := storeWord_value hs m
  have hcount : Value.cellCount? c ((n * c : Nat) : Int) = some n :=
    (if_pos (Int.emod_eq_zero_of_dvd hdvd)).trans (congrArg some hdiv)
  have he := hv.symm.trans (store?_eq endian (mem.cells m) (addr.bits m) (v.bits m) hcount rfl)
  exact eq_of_heq (Sigma.mk.inj (Option.some_injective _ he)).2

/-- A word of `k` cells is stored, whatever the byte order and also across the last address. Loaded
from there it is the word again. Every other cell is kept, and so is the outcome of every load that
takes other cells only. And the cells of what is loaded in one byte order are those of what is
loaded in the other one, in reverse. -/
theorem storeWord_laws {k : Nat} (hc : 0 < c) (hk : 1 ≤ k) (hfits : k ≤ 2 ^ a)
    (mem : Term (.mem a c)) (addr : Term (.bv a)) (v : Term (.bv (k * c))) (endian : Endian) :
    (∃ stored : Term (.mem a c),
      storeWord ⟨_, mem⟩ ⟨_, addr⟩ ⟨_, v⟩ (k * c : Nat) endian = .ok ⟨_, stored⟩ ∧
      ∀ m : Model,
        (load ⟨_, stored⟩ ⟨_, addr⟩ (k * c : Nat) endian).map (·.value m) = .ok (.word (v.bits m)) ∧
        (∀ y, ¬ Among (addr.bits m) k y → (stored.cells m).get y = (mem.cells m).get y) ∧
        ∀ (other : Term (.bv a)) (size : Int) (endian' : Endian),
          Apart (addr.bits m) k (other.bits m) (size / c).toNat →
          (load ⟨_, stored⟩ ⟨_, other⟩ size endian').map (·.value m) =
            (load ⟨_, mem⟩ ⟨_, other⟩ size endian').map (·.value m)) ∧
      ∀ m : Model, ∃ low high : BitVec (k * c),
        (load ⟨_, mem⟩ ⟨_, addr⟩ (k * c : Nat) .little).map (·.value m) = .ok (.word low) ∧
        (load ⟨_, mem⟩ ⟨_, addr⟩ (k * c : Nat) .big).map (·.value m) = .ok (.word high) ∧
        cellsOf c low k = (cellsOf c high k).reverse := by
  obtain ⟨stored, hs, hcells⟩ := storeWord_cells hc hk mem addr v endian
  refine ⟨⟨stored, hs, fun m => ?_⟩, load_reversed hc hk mem addr⟩
  have hlen : (inOrder endian (cellsOf c (v.bits m) k)).length = k := by
    rw [length_inOrder, length_cellsOf]
  refine ⟨?_, fun y hy => ?_, fun other size endian' hap => ?_⟩
  · have hread := cellsAt_writeCells (x := addr.bits m) (m := mem.cells m) (hlen.trans_le hfits)
    rw [hlen] at hread
    rw [load_cells hc hk, hcells, hread, inOrder_map, inOrder_inOrder, ofDigits_cellsOf,
      Nat.mod_eq_of_lt (v.bits m).isLt, BitVec.ofNat_toNat, BitVec.setWidth_eq]
  · rw [hcells]
    refine get_writeCells_of_ne fun j hj he => hy ⟨j, hlen ▸ hj, ?_⟩
    rwa [Nat.zero_add] at he
  · have hread : wordAt endian' size (stored.cells m) (other.bits m) (size / c).toNat =
        wordAt endian' size (mem.cells m) (other.bits m) (size / c).toNat := by
      rw [wordAt, hcells, cellsAt_writeCells_of_apart (hlen.symm ▸ hap)]
      rfl
    rw [load_in, load_in, hread]

/-- Three bytes that are stored at the last of four addresses go on at the first one, and the third
address keeps its byte. -/
theorem storeWord_laws_around : ∃ stored : Term (.mem 2 8),
    storeWord ⟨_, .const "mem" (.mem 2 8)⟩ ⟨_, numeral 2 3⟩ ⟨_, .const "v" (.bv 24)⟩ 24 .big =
      .ok ⟨_, stored⟩ ∧
    ∀ m : Model,
      (load ⟨_, stored⟩ ⟨_, numeral 2 3⟩ 24 .big).map (·.value m) =
        .ok (.word (m.const "v" (.bv 24))) ∧
      (stored.cells m).get 2 = (Memory.get (m.const "mem" (.mem 2 8)) 2) := by
  obtain ⟨⟨stored, hs, hm⟩, -⟩ := storeWord_laws (c := 8) (k := 3) (by decide) (by decide)
    (by decide) (.const "mem" (.mem 2 8)) (numeral 2 3) (.const "v" (.bv 24)) .big
  have hout : ¬ Among (BitVec.ofInt 2 3) 3 2 := by
    rintro ⟨i, hi, he⟩
    revert he
    revert i
    decide
  exact ⟨stored, hs, fun m => ⟨(hm m).1, (hm m).2.1 2 hout⟩⟩

end Term

end Precond
