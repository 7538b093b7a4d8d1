import Precond.Proofs.Term.Value
import Precond.Term.Word

/-! The word operators on terms give terms whose values are what the operators of lifted code make
of the values: `binary_value`, `unary_value`, `castTo_value`, `extractBits_value`,
`concatWords_value` and `choose_value`. Amounts of shifts are fitted to the width of what is
shifted, which changes no shift (`fitShift_bits`). -/

namespace Precond

open IR

theorem Value.word_ext {w v : Nat} {x : BitVec w} {y : BitVec v} (hw : w = v)
    (h : x.toNat = y.toNat) : Value.word x = .word y := by
  subst hw
  rw [BitVec.eq_of_toNat_eq h]

theorem Value.word_inj {w v : Nat} {x : BitVec w} {y : BitVec v}
    (h : Value.word x = .word y) : w = v ∧ x.toNat = y.toNat := by
  injection h with hs hx
  injection hs with hs
  subst hs
  cases hx
  exact ⟨rfl, rfl⟩

/-! ### Words -/

section Words

variable {w : Nat} (x y : BitVec w)

theorem smtSDiv_zero : x.smtSDiv 0#w = if x.msb then 1#w else .allOnes w := by
  rw [BitVec.smtSDiv]
  cases hx : x.msb
  · simp [BitVec.smtUDiv]
  · simp [BitVec.smtUDiv, ← BitVec.neg_one_eq_allOnes]

theorem smtSDiv_of_ne {y : BitVec w} (hy : y ≠ 0#w) : x.smtSDiv y = x.sdiv y := by
  have hy' : -y ≠ 0#w := by simpa using hy
  rw [BitVec.smtSDiv, BitVec.sdiv]
  cases x.msb <;> cases y.msb <;> simp [BitVec.smtUDiv, hy, hy']

theorem sdiv_eq_ofInt : x.sdiv y = .ofInt w (x.toInt.tdiv y.toInt) := by
  apply BitVec.eq_of_toInt_eq
  rw [BitVec.toInt_sdiv, BitVec.toInt_ofInt]

theorem srem_eq_ofInt : x.srem y = .ofInt w (x.toInt.tmod y.toInt) := by
  apply BitVec.eq_of_toInt_eq
  rw [BitVec.toInt_ofInt, ← BitVec.toInt_srem, BitVec.toInt_bmod_cancel]

theorem sshiftRight_of_le {n : Nat} (h : w ≤ n) : x.sshiftRight n = fill w x.msb := by
  cases hx : x.msb
  · rw [BitVec.sshiftRight_eq_of_msb_false hx]
    exact BitVec.ushiftRight_eq_zero h
  · rw [BitVec.sshiftRight_eq_of_msb_true hx, BitVec.ushiftRight_eq_zero h]
    exact BitVec.not_zero

end Words

/-! ### Operators -/

theorem SomeTerm.as_eq_ok {s : TSort} {t : SomeTerm} {x : Term s} (h : t.as s = .ok x) :
    t = ⟨s, x⟩ := by
  obtain ⟨s', y⟩ := t
  unfold SomeTerm.as at h
  split at h
  · rename_i hs
    cases hs; cases h; rfl
  · cases h

theorem SomeTerm.word_eq_ok {what : String} {t : SomeTerm} {y : (w : Nat) × Term (.bv w)}
    (h : t.word what = .ok y) : t = ⟨.bv y.1, y.2⟩ := by
  obtain ⟨s, x⟩ := t
  cases s <;> cases h
  rfl

theorem SomeTerm.memory_eq_ok {what : String} {t : SomeTerm}
    {y : (a : Nat) × (c : Nat) × Term (.mem a c)} (h : t.memory what = .ok y) :
    t = ⟨.mem y.1 y.2.1, y.2.2⟩ := by
  obtain ⟨s, x⟩ := t
  cases s <;> cases h
  rfl

theorem bind_eq_ok {α β : Type} {x : Except Fault α} {f : α → Except Fault β} {b : β}
    (h : x >>= f = .ok b) : ∃ a, x = .ok a ∧ f a = .ok b := by
  cases x with
  | ok a => exact ⟨a, rfl, h⟩
  | error e => cases h

namespace Term

variable {m : Model} {w v : Nat}

theorem extract_word {hi lo : Int} {x : Term (.bv w)} {t : SomeTerm}
    (h : extract hi lo x = .ok t) (m : Model) : (0 ≤ lo ∧ lo ≤ hi ∧ hi < w) ∧
      t.value m = .word ((x.bits m).extractLsb' lo.toNat (hi - lo + 1).toNat) := by
  unfold extract at h
  split at h
  · rename_i hr
    cases h
    refine ⟨hr, Value.word_ext (by omega) ?_⟩
    show ((x.bits m).extractLsb hi.toNat lo.toNat).toNat = _
    rw [BitVec.extractLsb'_toNat, BitVec.extractLsb_toNat]
    congr 2
    omega
  · cases h

/-- An amount that is fitted to a width is the same amount, or both reach the width. -/
theorem fitShift_bits {amount : Term (.bv v)} {t : Term (.bv w)} (h : fitShift w amount = .ok t) :
    (t.bits m).toNat = (amount.bits m).toNat ∨
      w ≤ (t.bits m).toNat ∧ w ≤ (amount.bits m).toNat := by
  unfold fitShift at h
  split at h
  · rename_i hv
    cases hv; cases h
    exact .inl rfl
  split at h
  · rename_i hlt
    have ht : Value.word ((amount.bits m).setWidth (v + (w - v))) = .word (t.bits m) :=
      congrArg (SomeTerm.value m) (SomeTerm.as_eq_ok h)
    left
    rw [← (Value.word_inj ht).2, BitVec.toNat_setWidth_of_le (by omega)]
  · rename_i hlt
    obtain ⟨u, hu, ht⟩ := bind_eq_ok h
    have hx := (extract_word hu m).2
    rw [SomeTerm.as_eq_ok ht, Spine.bits_ite, Spine.holds_cmp, Spine.bits_numeral,
      SomeTerm.value_word] at hx
    obtain ⟨hw, hn⟩ := Value.word_inj hx
    rw [BitVec.extractLsb'_toNat, ← hw] at hn
    have hvw : w < 2 ^ v :=
      Nat.lt_of_lt_of_le Nat.lt_two_pow_self (Nat.pow_le_pow_right (by omega) (by omega))
    have hww : w < 2 ^ w := Nat.lt_two_pow_self
    have hlim : (BitVec.ofInt v w).toNat = w := by
      rw [BitVec.ofInt_natCast, BitVec.toNat_ofNat, Nat.mod_eq_of_lt hvw]
    rw [hn]
    show _ >>> 0 % _ = _ ∨ _ ≤ _ >>> 0 % _ ∧ _
    rw [Nat.shiftRight_zero]
    simp only [BvCmp.eval, BitVec.ult, hlim, decide_eq_true_eq]
    split
    · left
      exact Nat.mod_eq_of_lt (by omega)
    · right
      rw [hlim, Nat.mod_eq_of_lt hww]
      omega

/-- What a rule for an operator says about the values of its operands. -/
def BinRule.Means (op : BinOp) : BinRule → Prop
  | .arith f => op.isShift = false ∧ ∀ (m : Model) {w : Nat} (x y : Term (.bv w)),
    op.onWords (x.bits m) (y.bits m) = some (.word ((bin f x y).bits m))
  | .compare f => op.isShift = false ∧ ∀ (m : Model) {w : Nat} (x y : Term (.bv w)),
    op.onWords (x.bits m) (y.bits m) = some (.word ((ofTruth (f x y)).bits m))
  | .shift f => op.isShift = true ∧ ∀ (m : Model) {w : Nat} (x y : Term (.bv w)) (n : Nat),
    (y.bits m).toNat = n ∨ w ≤ (y.bits m).toNat ∧ w ≤ n →
    op.shift (x.bits m) n = some (.word ((bin f x y).bits m))

theorem binRule_means (op : BinOp) : (binRule op).Means op := by
  cases op <;> refine ⟨rfl, fun m w x y => ?_⟩
  case shl | lshr =>
    intro n hn
    rw [Spine.bits_bin]
    simp only [BinOp.shift, BvBin.eval]
    rcases hn with rfl | ⟨h1, h2⟩
    · rfl
    · rw [if_pos h1, if_pos h2]
  case ashr =>
    intro n hn
    rw [Spine.bits_bin]
    simp only [BinOp.shift, BvBin.eval]
    split
    · rw [Nat.min_eq_right (by omega), sshiftRight_of_le _ (Nat.le_refl w)]
    · rw [Nat.min_eq_left (by omega), hn.resolve_right (by omega)]
  case sdiv =>
    rw [Spine.bits_bin]
    simp only [BinOp.onWords, BvBin.eval]
    split
    · rename_i hy
      rw [hy, smtSDiv_zero]
    · rename_i hy
      rw [smtSDiv_of_ne _ hy, sdiv_eq_ofInt]
  case smod =>
    rw [Spine.bits_bin, BinOp.onWords, ← srem_eq_ofInt]
    rfl
  case ne =>
    rw [Spine.bits_ofTruth, Spine.holds_ne]
    exact congrArg (fun b => some (Value.bit !b)) (Bool.beq_comm (a := x.bits m) (b := y.bits m))
  case eq | slt | sle =>
    rw [Spine.bits_ofTruth]
    simp only [Spine.holds_eq, Spine.holds_slt, Spine.holds_sle]
    rfl
  all_goals rfl

theorem binary_value {op : BinOp} {x y t : SomeTerm} (h : binary op x y = .ok t) (m : Model) :
    op.value? (x.value m) (y.value m) = some (t.value m) := by
  obtain ⟨⟨w, x⟩, hx, h⟩ := bind_eq_ok h
  obtain ⟨⟨v, y⟩, hy, h⟩ := bind_eq_ok h
  rw [SomeTerm.word_eq_ok hx, SomeTerm.word_eq_ok hy]
  have hop := binRule_means op
  show (if op.isShift then op.shift (x.bits m) (y.bits m).toNat
    else if h : v = w then op.onWords (x.bits m) (h ▸ y.bits m) else none) = _
  dsimp only at h
  split at h
  · rename_i f hf
    obtain ⟨z, hz, h⟩ := bind_eq_ok h
    cases h
    rw [hf] at hop
    rw [if_pos hop.1]
    exact hop.2 m x z _ (fitShift_bits hz)
  · rename_i f hf
    split at h
    · rename_i hv
      cases hv; cases h
      rw [hf] at hop
      rw [hop.1, if_neg Bool.false_ne_true, dif_pos rfl]
      exact hop.2 m x y
    · cases h
  · rename_i f hf
    split at h
    · rename_i hv
      cases hv; cases h
      rw [hf] at hop
      rw [hop.1, if_neg Bool.false_ne_true, dif_pos rfl]
      exact hop.2 m x y
    · cases h

theorem unary_value {op : UnOp} {x t : SomeTerm} (h : unary op x = .ok t) (m : Model) :
    op.value? (x.value m) = some (t.value m) := by
  obtain ⟨⟨w, x⟩, hx, h⟩ := bind_eq_ok h
  rw [SomeTerm.word_eq_ok hx]
  cases op <;> cases h <;> rfl

/-- A word in another width keeps its number or its low bits. -/
theorem extract_low {width : Int} {x : Term (.bv w)} {t : SomeTerm}
    (h : extract (width - 1) 0 x = .ok t) (m : Model) :
    0 < width ∧ width ≤ w ∧ t.value m = .word ((x.bits m).setWidth width.toNat) := by
  obtain ⟨hr, ht⟩ := extract_word h m
  refine ⟨by omega, by omega, ?_⟩
  rw [ht]
  refine Value.word_ext (by omega) ?_
  rw [BitVec.extractLsb'_toNat, BitVec.toNat_setWidth,
    show (width - 1 - 0 + 1).toNat = width.toNat by omega]
  rfl

section Casts

variable (b : BitVec w) {width : Int}

theorem value?_unsigned (h : 0 ≤ width) :
    CastKind.unsigned.value? width (.word b) = some (.word (b.setWidth width.toNat)) := if_pos h

theorem value?_signed (h : 0 ≤ width) :
    CastKind.signed.value? width (.word b) = some (.word (b.signExtend width.toNat)) := if_pos h

theorem value?_high (h : 0 ≤ width) (hw : width ≤ w) :
    CastKind.high.value? width (.word b) =
      some (.word (b.extractLsb' (w - width.toNat) width.toNat)) :=
  (if_pos h).trans (if_pos hw)

theorem value?_low (h : 0 ≤ width) (hw : width ≤ w) :
    CastKind.low.value? width (.word b) = some (.word (b.setWidth width.toNat)) :=
  (if_pos h).trans (if_pos hw)

end Casts

theorem castTo_value {kind : CastKind} {width : Int} {x t : SomeTerm}
    (h : castTo kind width x = .ok t) (m : Model) :
    kind.value? width (x.value m) = some (t.value m) := by
  obtain ⟨⟨w, x⟩, hx, h⟩ := bind_eq_ok h
  rw [SomeTerm.word_eq_ok hx]
  change kind.value? width (.word (x.bits m)) = _
  cases kind with
  | unsigned =>
    dsimp only at h
    split at h
    · rename_i hw
      cases h
      rw [hw, value?_unsigned _ (by omega), SomeTerm.value_word]
      exact congrArg (fun b => some (Value.word b)) (BitVec.setWidth_eq (x.bits m))
    split at h
    · obtain ⟨h0, hw, ht⟩ := extract_low h m
      rw [ht, value?_unsigned _ (by omega)]
    · cases h
      rw [value?_unsigned _ (by omega), SomeTerm.value_word, Spine.bits_zeroExtend,
        show w + (width - w).toNat = width.toNat by omega]
  | signed =>
    dsimp only at h
    split at h
    · rename_i hw
      cases h
      rw [hw, value?_signed _ (by omega), SomeTerm.value_word]
      exact congrArg (fun b => some (Value.word b)) (BitVec.signExtend_eq (x.bits m))
    split at h
    · obtain ⟨h0, hw, ht⟩ := extract_low h m
      rw [ht, value?_signed _ (by omega), BitVec.signExtend_eq_setWidth_of_le _ (by omega)]
    · cases h
      rw [value?_signed _ (by omega), SomeTerm.value_word, Spine.bits_signExtend,
        show w + (width - w).toNat = width.toNat by omega]
  | high =>
    dsimp only at h
    split at h
    · cases h
    · obtain ⟨hr, ht⟩ := extract_word h m
      rw [ht, value?_high _ (by omega) (by omega),
        show (w - 1 - (w - width) + 1 : Int).toNat = width.toNat by omega,
        show (w - width : Int).toNat = w - width.toNat by omega]
  | low =>
    dsimp only at h
    split at h
    · cases h
    · obtain ⟨h0, hw, ht⟩ := extract_low h m
      rw [ht, value?_low _ (by omega) (by omega)]

theorem extractBits_value {hi lo : Int} {x t : SomeTerm} (h : extractBits hi lo x = .ok t)
    (m : Model) : Value.extract? hi lo (x.value m) = some (t.value m) := by
  obtain ⟨⟨w, x⟩, hx, h⟩ := bind_eq_ok h
  rw [SomeTerm.word_eq_ok hx]
  dsimp only at h
  split at h
  · obtain ⟨hr, ht⟩ := extract_word h m
    rw [ht]
    exact if_pos hr
  · cases h

theorem concatWords_value {x y t : SomeTerm} (h : concatWords x y = .ok t) (m : Model) :
    Value.concat? (x.value m) (y.value m) = some (t.value m) := by
  obtain ⟨⟨w, x⟩, hx, h⟩ := bind_eq_ok h
  obtain ⟨⟨v, y⟩, hy, h⟩ := bind_eq_ok h
  rw [SomeTerm.word_eq_ok hx, SomeTerm.word_eq_ok hy]
  cases h
  rfl

theorem choose_value {c x y t : SomeTerm} (h : choose c x y = .ok t) (m : Model) :
    Value.choose? (c.value m) (x.value m) (y.value m) = some (t.value m) := by
  obtain ⟨s, x⟩ := x
  obtain ⟨s', y⟩ := y
  unfold choose at h
  split at h
  · rename_i hs
    cases hs
    obtain ⟨p, hp, h⟩ := bind_eq_ok h
    cases h
    refine (if_pos rfl).trans ?_
    rw [SomeTerm.condition_value hp]
    show some (if p.holds m then SomeTerm.value m ⟨s, x⟩ else SomeTerm.value m ⟨s, y⟩) =
      some (⟨s, cond (p.holds m) (x.eval m) (y.eval m)⟩ : Value)
    cases p.holds m <;> rfl
  · cases h

end Term

end Precond
