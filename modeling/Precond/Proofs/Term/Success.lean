import Precond.Proofs.Run.Sorts
import Precond.Proofs.Term.Access

/-! Operations on terms succeed where the sorts of their operands fit, and their results have the
sorts of the values they stand for. Together with the lemmas on values, which take success for
granted, this says that they are right. -/

namespace Precond

open IR

theorem bind_of_eq_ok {α β : Type} {x : Except Fault α} {a : α} (h : x = .ok a)
    (f : α → Except Fault β) : (x >>= f) = f a := by
  rw [h]
  rfl

theorem SomeTerm.as_self {s : TSort} (x : Term s) : SomeTerm.as s ⟨s, x⟩ = .ok x := dif_pos rfl

namespace Term

variable {a c w v : Nat}

/-- The width of a result, computed in another way. -/
theorem of_width {f : Except Fault SomeTerm} {k n : Nat} {u : Term (.bv k)}
    (h : f = .ok ⟨.bv k, u⟩) (hk : k = n) : ∃ t : Term (.bv n), f = .ok ⟨_, t⟩ := by
  subst hk
  exact ⟨u, h⟩

theorem extract_sorted (hi lo : Int) {n : Nat} (x : Term (.bv w)) (h0 : 0 ≤ lo) (hlo : lo ≤ hi)
    (hhi : hi < w) (hn : (hi - lo + 1).toNat = n) :
    ∃ t : Term (.bv n), extract hi lo x = .ok ⟨_, t⟩ := by
  have hwidth : hi.toNat - lo.toNat + 1 = n := by omega
  exact of_width (if_pos ⟨h0, hlo, hhi⟩) hwidth

/-! ### Words -/

theorem fitShift_sorted (hw : 0 < w) (amount : Term (.bv v)) :
    ∃ t, fitShift w amount = .ok t := by
  rw [fitShift]
  split
  · exact ⟨_, rfl⟩
  split
  · have hwidth : v + (w - v) = w := by omega
    obtain ⟨t, ht⟩ := of_width (f := .ok ⟨_, zeroExtend (w - v) amount⟩) rfl hwidth
    rw [Except.ok.inj ht]
    exact ⟨t, SomeTerm.as_self t⟩
  · obtain ⟨t, ht⟩ := extract_sorted (w - 1) 0 (n := w)
      (ite (cmp .ult amount (numeral v w)) amount (numeral v w)) (Int.le_refl 0) (by omega)
      (by omega) (by omega)
    refine ⟨t, ?_⟩
    simp only [ht]
    exact SomeTerm.as_self t

/-- Operators by the way they treat their operands. -/
theorem binRule_kind (op : BinOp) :
    (op.isShift = true ∧ ∃ f, binRule op = .shift f) ∨
      (op.isComparison = true ∧ ∃ f, binRule op = .compare f) ∨
        (op.isShift = false ∧ op.isComparison = false ∧ ∃ f, binRule op = .arith f) := by
  cases op
  case shl | lshr | ashr => exact .inl ⟨rfl, _, rfl⟩
  case eq | ne | ult | ule | slt | sle => exact .inr (.inl ⟨rfl, _, rfl⟩)
  all_goals exact .inr (.inr ⟨rfl, rfl, _, rfl⟩)

theorem isComparison_of_isShift {op : BinOp} (h : op.isShift = true) : op.isComparison = false := by
  cases op <;> first | rfl | cases h

theorem binary_arith {op : BinOp} (hs : op.isShift = false) (hc : op.isComparison = false)
    (x y : Term (.bv w)) : ∃ t : Term (.bv w), binary op ⟨_, x⟩ ⟨_, y⟩ = .ok ⟨_, t⟩ := by
  rcases binRule_kind op with ⟨hop, -⟩ | ⟨hop, -⟩ | ⟨-, -, f, hf⟩
  · simp [hs] at hop
  · simp [hc] at hop
  · refine ⟨bin f x y, (bind_of_eq_ok rfl _).trans ((bind_of_eq_ok rfl _).trans ?_)⟩
    simp only [hf, dite_true]
    rfl

theorem binary_compare {op : BinOp} (hc : op.isComparison = true) (x y : Term (.bv w)) :
    ∃ t : Term (.bv 1), binary op ⟨_, x⟩ ⟨_, y⟩ = .ok ⟨_, t⟩ := by
  rcases binRule_kind op with ⟨hop, -⟩ | ⟨-, f, hf⟩ | ⟨-, hop, -⟩
  · simp [isComparison_of_isShift hop] at hc
  · refine ⟨ofTruth (f x y), (bind_of_eq_ok rfl _).trans ((bind_of_eq_ok rfl _).trans ?_)⟩
    simp only [hf, dite_true]
    rfl
  · simp [hc] at hop

theorem binary_shift {op : BinOp} (hs : op.isShift = true) (hw : 0 < w) (x : Term (.bv w))
    (y : Term (.bv v)) : ∃ t : Term (.bv w), binary op ⟨_, x⟩ ⟨_, y⟩ = .ok ⟨_, t⟩ := by
  rcases binRule_kind op with ⟨-, f, hf⟩ | ⟨hop, -⟩ | ⟨hop, -⟩
  · obtain ⟨amount, ha⟩ := fitShift_sorted hw y
    refine ⟨bin f x amount, (bind_of_eq_ok rfl _).trans ((bind_of_eq_ok rfl _).trans ?_)⟩
    simp only [hf]
    exact bind_of_eq_ok ha _
  · simp [isComparison_of_isShift hs] at hop
  · simp [hs] at hop

theorem unary_sorted (op : UnOp) (x : Term (.bv w)) :
    ∃ t : Term (.bv w), unary op ⟨_, x⟩ = .ok ⟨_, t⟩ := by
  cases op <;> exact ⟨_, rfl⟩

theorem castTo_resize {kind : CastKind} {width : Int} (hk : kind = .unsigned ∨ kind = .signed)
    (h0 : 0 < width) (x : Term (.bv w)) :
    ∃ t : Term (.bv width.toNat), castTo kind width ⟨_, x⟩ = .ok ⟨_, t⟩ := by
  have hlow : width < w → ∃ t : Term (.bv width.toNat), extract (width - 1) 0 x = .ok ⟨_, t⟩ :=
    fun hlt => extract_sorted _ _ x (Int.le_refl 0) (by omega) (by omega) (by omega)
  rcases hk with rfl | rfl
  all_goals
    simp only [castTo, SomeTerm.word]
    by_cases heq : width = w
    · subst heq
      exact of_width (if_pos rfl) (Int.toNat_natCast w).symm
    · by_cases hlt : width < w
      · obtain ⟨t, ht⟩ := hlow hlt
        exact ⟨t, (if_neg heq).trans ((if_pos hlt).trans ht)⟩
      · have hwidth : w + (width - w).toNat = width.toNat := by omega
        exact of_width ((if_neg heq).trans (if_neg hlt)) hwidth

theorem castTo_cut {kind : CastKind} {width : Int} (hk : kind = .high ∨ kind = .low)
    (h0 : 0 < width) (hw : width ≤ w) (x : Term (.bv w)) :
    ∃ t : Term (.bv width.toNat), castTo kind width ⟨_, x⟩ = .ok ⟨_, t⟩ := by
  have hfits : ¬ width > w := by omega
  rcases hk with rfl | rfl
  · obtain ⟨t, ht⟩ := extract_sorted (w - 1) (w - width) (n := width.toNat) x
      (by omega) (by omega) (by omega) (by omega)
    exact ⟨t, (if_neg hfits).trans ht⟩
  · obtain ⟨t, ht⟩ := extract_sorted (width - 1) 0 (n := width.toNat) x
      (by omega) (by omega) (by omega) (by omega)
    exact ⟨t, (if_neg hfits).trans ht⟩

theorem extractBits_sorted {hi lo : Int} (h0 : 0 ≤ lo) (hlo : lo ≤ hi) (hhi : hi < w)
    (x : Term (.bv w)) :
    ∃ t : Term (.bv (hi - lo + 1).toNat), extractBits hi lo ⟨_, x⟩ = .ok ⟨_, t⟩ := by
  obtain ⟨t, ht⟩ := extract_sorted _ _ x h0 hlo hhi rfl
  exact ⟨t, (if_pos ⟨h0, hlo, hhi⟩).trans ht⟩

theorem concatWords_sorted (x : Term (.bv w)) (y : Term (.bv v)) :
    ∃ t : Term (.bv (w + v)), concatWords ⟨_, x⟩ ⟨_, y⟩ = .ok ⟨_, t⟩ := ⟨_, rfl⟩

theorem choose_sorted {s : TSort} (b : Term (.bv w)) (x y : Term s) :
    ∃ t : Term s, choose ⟨_, b⟩ ⟨_, x⟩ ⟨_, y⟩ = .ok ⟨_, t⟩ := ⟨_, dif_pos rfl⟩

/-! ### Memories -/

theorem cellCount_sorted {size : Int} (h : (c : Int) ∣ size) : cellCount c size = .ok (size / c) :=
  if_pos (Int.emod_eq_zero_of_dvd h)

/-- So many bits are a number of cells. -/
theorem cells_of_dvd {size : Int} (h0 : 0 < size) (h : (c : Int) ∣ size) :
    0 < c ∧ 0 < (size / c).toNat ∧ c * (size / c).toNat = size.toNat := by
  obtain ⟨k, rfl⟩ := h
  have hc : c ≠ 0 := by
    rintro rfl
    simp at h0
  have hk : 0 < k := by
    have hc' : (0 : Int) < c := by omega
    exact pos_of_mul_pos_right h0 hc'.le
  have hdiv : (c : Int) * k / c = k := Int.mul_ediv_cancel_left k (by omega)
  rw [hdiv, Int.toNat_mul (by omega) (by omega), Int.toNat_natCast]
  exact ⟨by omega, by omega, rfl⟩

theorem concatAll_sorted (x : Term (.bv w)) (ys : List (Term (.bv c))) :
    ∃ t : Term (.bv (w + c * ys.length)), concatAll ⟨_, x⟩ (ys.map fun y => ⟨_, y⟩) =
      .ok ⟨_, t⟩ := by
  induction ys generalizing w with
  | nil => exact ⟨x, rfl⟩
  | cons y ys ih =>
    obtain ⟨t, ht⟩ := ih (concat x y)
    have hwidth : w + c + c * ys.length = w + c * (ys.length + 1) := by
      rw [Nat.mul_succ]
      omega
    exact of_width ht hwidth

/-- The cells of a word by ascending address, the high end first. -/
def highFirst {α : Type} : Endian → List α → List α
  | .little, cells => cells.reverse
  | .big, cells => cells

/-- A word is read from a list of cells, the high end first. -/
theorem readCells_sorted (ordered : List (Term (.bv c))) (h : ordered ≠ []) :
    ∃ t : Term (.bv (c * ordered.length)),
      (match ordered.map (fun x => (⟨_, x⟩ : SomeTerm)) with
        | [] => throw Fault.illSorted
        | x :: xs => concatAll x xs : Except Fault SomeTerm) = .ok ⟨_, t⟩ := by
  cases ordered with
  | nil => exact absurd rfl h
  | cons x xs =>
    obtain ⟨t, ht⟩ := concatAll_sorted x xs
    have hwidth : c + c * xs.length = c * (xs.length + 1) := by
      rw [Nat.mul_succ]
      omega
    exact of_width ht hwidth

theorem load_sorted {size : Int} (mem : Term (.mem a c)) (addr : Term (.bv a)) (endian : Endian)
    (h0 : 0 < size) (h : (c : Int) ∣ size) :
    ∃ t : Term (.bv size.toNat), load ⟨_, mem⟩ ⟨_, addr⟩ size endian = .ok ⟨_, t⟩ := by
  obtain ⟨-, hn, hsize⟩ := cells_of_dvd h0 h
  let cells : List (Term (.bv c)) :=
    (List.range (size / c).toNat).map fun i => select mem (offset addr i)
  obtain ⟨ordered, hlen, hordered⟩ : ∃ ordered : List (Term (.bv c)),
      ordered.length = (size / c).toNat ∧
        highFirst endian (cells.map fun x => (⟨_, x⟩ : SomeTerm)) =
          ordered.map fun x => (⟨_, x⟩ : SomeTerm) := by
    cases endian with
    | little => exact ⟨cells.reverse, by simp [cells], by rw [List.map_reverse]; rfl⟩
    | big => exact ⟨cells, by simp [cells], rfl⟩
  have hne : ordered ≠ [] := by
    rintro rfl
    simp at hlen
    omega
  obtain ⟨t, ht⟩ := readCells_sorted ordered hne
  rw [← hordered, List.map_map] at ht
  have hwidth : c * ordered.length = size.toNat := by rw [hlen, hsize]
  have hload : load ⟨_, mem⟩ ⟨_, addr⟩ size endian = .ok ⟨_, t⟩ := by
    refine (bind_of_eq_ok rfl _).trans ((bind_of_eq_ok (cellCount_sorted h) _).trans ?_)
    refine (bind_of_eq_ok rfl _).trans ((bind_of_eq_ok (SomeTerm.as_self addr) _).trans ?_)
    cases endian with
    | little => exact ht
    | big => exact ht
  exact of_width hload hwidth

theorem mapM_ok {α β : Type} {f : α → Except Fault β} {xs : List α}
    (h : ∀ x ∈ xs, ∃ y, f x = .ok y) : ∃ ys, xs.mapM f = .ok ys := by
  induction xs with
  | nil => exact ⟨[], rfl⟩
  | cons x xs ih =>
    obtain ⟨y, hy⟩ := h x List.mem_cons_self
    obtain ⟨ys, hys⟩ := ih fun z hz => h z (List.mem_cons_of_mem _ hz)
    refine ⟨y :: ys, ?_⟩
    rw [List.mapM_cons, hy, hys]
    rfl

theorem pieces_sorted {n : Nat} (hc : 0 < c) (hw : c * n = w) (value : Term (.bv w))
    (endian : Endian) : ∃ cells : List (Term (.bv c)), pieces c ⟨_, value⟩ w n endian = .ok cells := by
  rw [pieces]
  split
  · rename_i hn
    obtain ⟨t, ht⟩ := of_width (f := .ok ⟨_, value⟩) (n := c) rfl (by rw [← hw, hn, Nat.mul_one])
    rw [Except.ok.inj ht]
    refine ⟨[t], ?_⟩
    rw [SomeTerm.as_self]
    rfl
  · simp only [SomeTerm.word]
    refine mapM_ok fun i hi => ?_
    have hin : i < n := List.mem_range.mp hi
    have hlast : (i + 1) * c ≤ w := by
      rw [← hw, Nat.mul_comm c]
      exact Nat.mul_le_mul_right c hin
    have hcell : ∀ lo : Int, 0 ≤ lo → lo + c ≤ w →
        ∃ y, (do (← extract (lo + c - 1) lo value).as (.bv c)) = .ok y := by
      intro lo h0 hlo
      obtain ⟨t, ht⟩ := extract_sorted (lo + c - 1) lo (n := c) value h0 (by omega)
        (by omega) (by omega)
      refine ⟨t, ?_⟩
      rw [ht]
      exact SomeTerm.as_self t
    have hstep : ((i : Int) + 1) * c = ((i + 1) * c : Nat) := by push_cast; rfl
    cases endian with
    | little =>
      have hi : (i : Int) * c + c = ((i + 1) * c : Nat) := by push_cast; ring
      have h0 : 0 ≤ (i : Int) * c := by positivity
      exact hcell (i * c) h0 (by omega)
    | big =>
      have hmul : (i + 1) * c = i * c + c := by ring
      exact hcell (w - (i + 1) * c) (by omega) (by omega)

theorem storeWord_sorted {size : Int} (mem : Term (.mem a c)) (addr : Term (.bv a))
    (value : Term (.bv w)) (endian : Endian) (hw : 0 < w) (hsize : size = w)
    (h : (c : Int) ∣ size) : ∃ t : Term (.mem a c),
      storeWord ⟨_, mem⟩ ⟨_, addr⟩ ⟨_, value⟩ size endian = .ok ⟨_, t⟩ := by
  have h0 : 0 < size := by omega
  obtain ⟨hc, -, hcells⟩ := cells_of_dvd h0 h
  obtain ⟨cells, hpieces⟩ := pieces_sorted hc (hcells.trans (by omega)) value endian
  refine ⟨storeCells addr 0 cells mem, (bind_of_eq_ok rfl _).trans ?_⟩
  refine (bind_of_eq_ok (cellCount_sorted h) _).trans ?_
  refine (bind_of_eq_ok rfl _).trans ((bind_of_eq_ok rfl _).trans ?_)
  refine (if_neg (not_not.mpr hsize)).trans ?_
  exact (bind_of_eq_ok (SomeTerm.as_self addr) _).trans (bind_of_eq_ok hpieces _)

end Term

end Precond
