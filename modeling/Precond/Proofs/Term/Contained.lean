import Precond.Analysis.Report
import Precond.Proofs.Term.Success

/-! Operations on terms either give a term of the sort that their operands tell, or their fault is one
that an analysis reports. What they do not check themselves is asked for: the widths of casts and
reads are positive, and addresses are as wide as those of the memory. -/

namespace Precond

open IR

/-- The fault ends in a report, or it is one of the configuration. -/
def Fault.Contained : Fault → Prop
  | .config _ | .translation _ | .unknownRegister .. | .noEntry _ => True
  | _ => False

theorem Fault.Contained.reported {f : Fault} (h : f.Contained) :
    (∃ why, f = .config why) ∨ ∃ title, Analysis.reportTitle? f = some title := by
  cases f with
  | config why => exact .inl ⟨why, rfl⟩
  | translation | unknownRegister | noEntry => exact .inr ⟨_, rfl⟩
  | _ => cases h

/-- Of the result `P` holds, and a fault is a contained one. -/
def Ends (P : α → Prop) : Except Fault α → Prop
  | .ok a => P a
  | .error f => f.Contained

namespace Ends

variable {P Q : α → Prop} {x : Except Fault α}

theorem of_ok {a : α} (h : Ends P x) (hx : x = .ok a) : P a := by
  subst hx
  exact h

theorem of_error {f : Fault} (h : Ends P x) (hx : x = .error f) : f.Contained := by
  subst hx
  exact h

theorem of_exists (h : ∃ a, x = .ok a ∧ P a) : Ends P x := by
  obtain ⟨a, rfl, ha⟩ := h
  exact ha

theorem mono (h : Ends P x) (hPQ : ∀ a, P a → Q a) : Ends Q x := by
  cases x with
  | ok a => exact hPQ a h
  | error f => exact h

theorem bind {β : Type _} {R : β → Prop} {k : α → Except Fault β} (h : Ends P x)
    (hk : ∀ a, P a → Ends R (k a)) : Ends R (x >>= k) := by
  cases x with
  | ok a => exact hk a h
  | error f => exact h

end Ends

/-- The term is of the sort, if it is not an error. -/
abbrev OfSort (s : TSort) (t : SomeTerm) : Prop := t.1 = s

namespace Term

variable {x y mem addr value : SomeTerm} {size : Int}

/-- A result of a known sort. -/
theorem ends_sorted {f : Except Fault SomeTerm} {s : TSort} (h : ∃ t : Term s, f = .ok ⟨s, t⟩) :
    Ends (OfSort s) f := by
  obtain ⟨t, rfl⟩ := h
  exact rfl

theorem word_ends (what : String) : Ends (fun _ => True) (x.word what) := by
  obtain ⟨s, t⟩ := x
  cases s <;> exact True.intro

theorem ends_word {R : α → Prop} {what : String} {k : ((w : Nat) × Term (.bv w)) → Except Fault α}
    (h : ∀ (w : Nat) (t : Term (.bv w)), x = ⟨_, t⟩ → Ends R (k ⟨w, t⟩)) :
    Ends R (x.word what >>= k) := by
  obtain ⟨s, t⟩ := x
  cases s with
  | bv w => exact h w t rfl
  | bool | mem => exact True.intro

theorem ends_memory {R : α → Prop} {what : String}
    {k : ((a : Nat) × (c : Nat) × Term (.mem a c)) → Except Fault α}
    (h : ∀ (a c : Nat) (t : Term (.mem a c)), x = ⟨_, t⟩ → Ends R (k ⟨a, c, t⟩)) :
    Ends R (x.memory what >>= k) := by
  obtain ⟨s, t⟩ := x
  cases s with
  | mem a c => exact h a c t rfl
  | bool | bv => exact True.intro

/-- A comparison gives one bit, other operators a word as wide as the left operand. -/
theorem binary_ends {op : BinOp} (hx : x.1.Positive) :
    Ends (OfSort (if op.isComparison then .bv 1 else x.1)) (binary op x y) := by
  obtain ⟨s, t⟩ := x
  obtain ⟨s', u⟩ := y
  cases s with
  | bool | mem => exact True.intro
  | bv w =>
  cases s' with
  | bool | mem => exact True.intro
  | bv v =>
  by_cases hshift : op.isShift
  · rw [isComparison_of_isShift hshift]
    exact ends_sorted (binary_shift hshift hx t u)
  by_cases hw : v = w
  · subst hw
    cases hc : op.isComparison with
    | true => exact ends_sorted (binary_compare hc t u)
    | false => exact ends_sorted (binary_arith (Bool.eq_false_iff.mpr hshift) hc t u)
  · have hfails : binary op ⟨_, t⟩ ⟨_, u⟩ = .error (.translation (.operandWidths op w v)) := by
      refine (bind_of_eq_ok rfl _).trans ((bind_of_eq_ok rfl _).trans ?_)
      rcases binRule_kind op with ⟨hop, -⟩ | ⟨-, f, hf⟩ | ⟨-, -, f, hf⟩
      · exact absurd hop hshift
      · simp only [hf, dif_neg hw]
        rfl
      · simp only [hf, dif_neg hw]
        rfl
    rw [hfails]
    exact True.intro

theorem unary_ends (op : UnOp) : Ends (OfSort x.1) (unary op x) := by
  refine ends_word fun w t ht => ?_
  subst ht
  cases op <;> exact rfl

theorem castTo_ends {kind : CastKind} {width : Int} (h0 : 0 < width) :
    Ends (OfSort (.bv width.toNat)) (castTo kind width x) := by
  obtain ⟨s, t⟩ := x
  cases s with
  | bool | mem => exact True.intro
  | bv w =>
    have hcut {y : Except Fault SomeTerm} (hle : width ≤ w → Ends (OfSort (.bv width.toNat)) y) :
        Ends (OfSort (.bv width.toNat))
          (if width > w then throw (.translation (.castWidth kind width w)) else y) := by
      split
      · exact True.intro
      · exact hle (by omega)
    cases kind with
    | unsigned => exact ends_sorted (castTo_resize (.inl rfl) h0 t)
    | signed => exact ends_sorted (castTo_resize (.inr rfl) h0 t)
    | high =>
      exact hcut fun hw => ends_sorted (extract_sorted _ _ t (by omega) (by omega) (by omega) (by omega))
    | low =>
      exact hcut fun hw => ends_sorted (extract_sorted _ _ t (by omega) (by omega) (by omega) (by omega))

theorem extractBits_ends {hi lo : Int} :
    Ends (fun t => 0 ≤ lo ∧ lo ≤ hi ∧ t.1 = .bv (hi - lo + 1).toNat) (extractBits hi lo x) := by
  refine ends_word fun w t ht => ?_
  dsimp only
  split
  · rename_i h
    obtain ⟨u, hu⟩ := extract_sorted hi lo t h.1 h.2.1 h.2.2 rfl
    exact .of_exists ⟨_, hu, h.1, h.2.1, rfl⟩
  · exact True.intro

theorem concatWords_ends :
    Ends (fun t => ∃ w v, x.1 = .bv w ∧ y.1 = .bv v ∧ t.1 = .bv (w + v)) (concatWords x y) := by
  refine ends_word fun w t ht => ends_word fun v u hu => ?_
  subst ht hu
  exact ⟨w, v, rfl, rfl, rfl⟩

theorem condition_ends : Ends (fun _ => True) x.condition := ends_word fun _ _ _ => True.intro

theorem choose_ends {c : SomeTerm} : Ends (OfSort x.1) (choose c x y) := by
  unfold choose
  split
  · exact condition_ends.bind fun b _ => rfl
  · exact True.intro

theorem sized_ends {w : Nat} (h : x.1 = .bv w) : Ends (fun _ => True) x.sized := by
  obtain ⟨s, t⟩ := x
  subst h
  exact True.intro

theorem as_ends {s : TSort} (h : x.1 = s) : Ends (fun _ => True) (x.as s) := by
  subst h
  rw [SomeTerm.as_self]
  exact True.intro

theorem eq_ends (h : y.1 = x.1) : Ends (fun _ => True) (x.eq y) := (as_ends h).bind fun _ _ => True.intro

/-! ### Memories -/

/-- The address is as wide as the addresses of the memory. -/
def Addresses (mem addr : TSort) : Prop := ∀ a c w, mem = .mem a c → addr = .bv w → w = a

theorem cellCount_ends {R : α → Prop} {c : Nat} {k : Int → Except Fault α}
    (h : (c : Int) ∣ size → Ends R (k (size / c))) : Ends R (cellCount c size >>= k) := by
  unfold cellCount
  split
  · rename_i hd
    exact h (Int.dvd_of_emod_eq_zero hd)
  · exact True.intro

/-- What is read has so many bits, and it is read from a memory at one of its addresses. -/
theorem load_ends {endian : Endian} (h0 : 0 < size) (ha : Addresses mem.1 addr.1) :
    Ends (fun t => OfSort (.bv size.toNat) t ∧ ∃ a c, mem.1 = .mem a c ∧ addr.1 = .bv a)
      (load mem addr size endian) := by
  obtain ⟨s, m⟩ := mem
  obtain ⟨s', i⟩ := addr
  cases s with
  | bool | bv => exact True.intro
  | mem a c =>
    by_cases hd : (c : Int) ∣ size
    · cases s' with
      | bv w =>
        obtain rfl := ha a c w rfl rfl
        exact (ends_sorted (load_sorted m i endian h0 hd)).mono fun t ht => ⟨ht, _, c, rfl, rfl⟩
      | bool | mem =>
        refine ends_memory (x := ⟨.mem a c, m⟩) fun a' c' m' hm => cellCount_ends fun _ => ?_
        exact True.intro
    · refine ends_memory (x := ⟨.mem a c, m⟩) fun a' c' m' hm => cellCount_ends fun hd' => ?_
      cases hm
      exact absurd hd' hd

theorem storeWord_ends {endian : Endian} (hv : value.1.Positive) (ha : Addresses mem.1 addr.1) :
    Ends (OfSort mem.1) (storeWord mem addr value size endian) := by
  obtain ⟨s, m⟩ := mem
  obtain ⟨s', i⟩ := addr
  obtain ⟨s'', v⟩ := value
  cases s with
  | bool | bv => exact True.intro
  | mem a c =>
  by_cases hfits : (c : Int) ∣ size ∧ ∃ k : Nat, s'' = .bv k ∧ size = k
  · obtain ⟨hd, k, rfl, hk⟩ := hfits
    cases s' with
    | bv w =>
      obtain rfl := ha a c w rfl rfl
      exact ends_sorted (storeWord_sorted m i v endian hv hk hd)
    | bool | mem => exact ends_memory (x := ⟨.mem a c, m⟩) fun a' c' m' hm => cellCount_ends fun _ => True.intro
  · refine ends_memory (x := ⟨.mem a c, m⟩) fun a' c' m' hm => cellCount_ends fun hd => ?_
    cases hm
    refine ends_word fun w i' hi => ends_word fun k v' hv' => ?_
    cases hv'
    have hsize : size ≠ k := fun hk => hfits ⟨hd, k, rfl, hk⟩
    dsimp only
    rw [if_pos hsize]
    exact True.intro

end Term

end Precond
