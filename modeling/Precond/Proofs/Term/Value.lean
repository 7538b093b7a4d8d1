import Precond.Proofs.Run.Value
import Precond.Term.Build
import Precond.Term.Eval

/-! Values of terms that are built by the operations on terms, and of terms in which constants are
replaced: `Spine.eval_replace` says that replacing constants is giving them other values. -/

namespace Precond

/-- The value of a term in a model, with its sort. -/
def SomeTerm.value (m : Model) (t : SomeTerm) : Value := ⟨t.1, t.2.eval m⟩

namespace Spine

/-- The value of a word. -/
def bits (m : Model) {w : Nat} (x : Term (.bv w)) : BitVec w := x.eval m

/-- The value of a memory. -/
def cells (m : Model) {a c : Nat} (x : Term (.mem a c)) : Memory a c := x.eval m

/-- The value of a term is told by the constants in it. -/
theorem eval_congr {m m' : Model} {d : List TSort} {r : TSort} (hf : m.func = m'.func) {t : Spine d r}
    (h : ∀ c ∈ t.constants, m.const c.1 c.2 = m'.const c.1 c.2) : t.eval m = t.eval m' := by
  induction t with
  | const n s => exact h (n, s) (List.mem_singleton_self _)
  | op f =>
    cases f with
    | func n dom ran => exact congrFun (congrFun (congrFun hf n) dom) ran
    | _ => rfl
  | app f x ihf ihx =>
    rw [eval, eval, ihf fun c hc => h c (List.mem_append_left _ hc),
      ihx fun c hc => h c (List.mem_append_right _ hc)]

end Spine

namespace Swap

/-- The replaced term is a constant. -/
def OnConst (w : Swap) : Prop := ∃ n, w.old = .const n w.sort

theorem find?_eq_none {s : TSort} {swaps : List Swap} {t : Term s}
    (h : ∀ w ∈ swaps, w.old.same t = false) : find? swaps t = none := by
  suffices H : ∀ found, swaps.foldl (fun found w =>
      if w.old.same t then (if h : w.sort = s then some (h ▸ w.new) else found) else found) found =
      found from H none
  intro found
  induction swaps generalizing found with
  | nil => rfl
  | cons w ws ih =>
    rw [List.foldl_cons, if_neg (by simp [h w List.mem_cons_self])]
    exact ih (fun w hw => h w (List.mem_cons_of_mem _ hw)) found

theorem OnConst.same_op {w : Swap} (hw : w.OnConst) (f : Op) : w.old.same (.op f) = false := by
  obtain ⟨n, hn⟩ := hw
  rw [hn]; rfl

theorem OnConst.same_app {w : Swap} (hw : w.OnConst) {s : TSort} {d : List TSort} {r : TSort}
    (f : Spine (s :: d) r) (x : Term s) : w.old.same (.app f x) = false := by
  obtain ⟨n, hn⟩ := hw
  rw [hn]; rfl

end Swap

namespace Spine

/-! ### Replaced constants -/

theorem swapWith_of_none {swaps : List Swap} {d : List TSort} {r : TSort} {whole : Spine d r}
    (h : ∀ w ∈ swaps, w.old.same whole = false) (rebuilt : Spine d r) :
    swapWith swaps whole rebuilt = rebuilt := by
  cases d with
  | nil => simp [swapWith, Swap.find?_eq_none h]
  | cons => rfl

/-- Replacing constants in a term has the effect of giving them other values. -/
theorem eval_replace {swaps : List Swap} (h : ∀ w ∈ swaps, w.OnConst) (m : Model)
    {d : List TSort} {r : TSort} (t : Spine d r) :
    (t.replace swaps).eval m = t.eval (m.update swaps) := by
  induction t with
  | const n s =>
    simp only [replace, swapWith, eval, Model.update]
    cases Swap.find? swaps (.const n s) <;> rfl
  | op f =>
    rw [replace, swapWith_of_none fun w hw => (h w hw).same_op f]
    cases f <;> rfl
  | app f x ihf ihx =>
    rw [replace, swapWith_of_none fun w hw => (h w hw).same_app f x]
    rw [eval, eval, ihf, ihx]

/-! ### Built terms -/

variable (m : Model)

@[simp] theorem holds_truth (b : Bool) : (Term.truth b).holds m = b := rfl

@[simp] theorem holds_not (p : Term .bool) : p.not.holds m = !p.holds m := rfl

@[simp] theorem holds_implies (p q : Term .bool) :
    (p.implies q).holds m = (!p.holds m || q.holds m) := rfl

@[simp] theorem holds_ite (c p q : Term .bool) :
    (Term.ite c p q).holds m = if c.holds m then p.holds m else q.holds m := by
  show cond (c.holds m) (p.holds m) (q.holds m) = _
  cases c.holds m <;> rfl

theorem holds_saturate_all (ps : List (Term .bool))
    (f : Spine (List.replicate ps.length .bool) .bool) (acc : Bool)
    (hf : f.eval m = Fn.all ps.length acc) :
    (saturate ps f).holds m = (acc && ps.all fun p => p.holds m) := by
  induction ps generalizing acc with
  | nil => rw [saturate, List.all_nil, Bool.and_true]; exact hf
  | cons p ps ih =>
    rw [saturate, ih _ (acc && p.holds m) (by rw [eval, hf]; rfl)]
    simp [Bool.and_assoc]

@[simp] theorem holds_and (ps : List (Term .bool)) :
    (Term.and ps).holds m = ps.all fun p => p.holds m :=
  (holds_saturate_all m ps _ true rfl).trans (Bool.true_and _)

theorem isNumeral_sort {d : List TSort} {r : TSort} (t : Spine d r) (h : t.isNumeral) :
    ∃ w, r = .bv w := by
  cases t with
  | op f => cases f with
    | bvLit x => exact ⟨_, rfl⟩
    | _ => cases h
  | _ => cases h

theorem agree_comm_of_numeral {s : TSort} {t : Term s} (h : t.isNumeral) (x y : s.Val) :
    s.agree x y = s.agree y x := by
  obtain ⟨w, rfl⟩ := t.isNumeral_sort h
  exact Bool.beq_comm (a := (x : BitVec w))

theorem turned_numeral {s : TSort} {x y : Term s} (h : Term.turned x y = true) :
    y.isNumeral = true := by
  simp only [Term.turned, Bool.and_eq_true] at h
  exact h.1

@[simp] theorem holds_eq {s : TSort} (x y : Term s) :
    (Term.eq x y).holds m = s.agree (x.eval m) (y.eval m) := by
  unfold Term.eq
  split
  · rename_i h
    exact agree_comm_of_numeral (turned_numeral h) _ _
  · rfl

@[simp] theorem holds_ne {s : TSort} (x y : Term s) :
    (Term.ne x y).holds m = !s.agree (y.eval m) (x.eval m) := by
  have H : ∀ a b : Term s, (saturate [a, b] (.op (.distinct s 2))).holds m =
      !s.agree (b.eval m) (a.eval m) := by
    intro a b
    show (true && !false && !(s.agree (b.eval m) (a.eval m) || false)) = _
    simp
  unfold Term.ne
  split
  · rename_i h
    exact (H y x).trans (congrArg not (agree_comm_of_numeral (turned_numeral h) _ _))
  · exact H x y

@[simp] theorem bits_numeral (w : Nat) (v : Int) :
    (Term.numeral w v).bits m = BitVec.ofInt w v := rfl

variable {w v : Nat}

@[simp] theorem bits_un (op : BvUn) (x : Term (.bv w)) :
    (Term.un op x).bits m = op.eval (x.bits m) := rfl

@[simp] theorem bits_bin (op : BvBin) (x y : Term (.bv w)) :
    (Term.bin op x y).bits m = op.eval (x.bits m) (y.bits m) := rfl

@[simp] theorem holds_cmp (op : BvCmp) (x y : Term (.bv w)) :
    (Term.cmp op x y).holds m = op.eval (x.bits m) (y.bits m) := rfl

@[simp] theorem bits_concat (x : Term (.bv w)) (y : Term (.bv v)) :
    (Term.concat x y).bits m = x.bits m ++ y.bits m := rfl

@[simp] theorem bits_zeroExtend (n : Nat) (x : Term (.bv w)) :
    (Term.zeroExtend n x).bits m = (x.bits m).setWidth (w + n) := rfl

@[simp] theorem bits_signExtend (n : Nat) (x : Term (.bv w)) :
    (Term.signExtend n x).bits m = (x.bits m).signExtend (w + n) := rfl

@[simp] theorem bits_slice (hi lo : Nat) (x : Term (.bv w)) :
    (Term.slice hi lo x).bits m = (x.bits m).extractLsb hi lo := rfl

@[simp] theorem bits_ite (c : Term .bool) (x y : Term (.bv w)) :
    (Term.ite c x y).bits m = if c.holds m then x.bits m else y.bits m := by
  show cond (c.holds m) (x.bits m) (y.bits m) = _
  cases c.holds m <;> rfl

@[simp] theorem bits_select {a c : Nat} (t : Term (.mem a c)) (x : Term (.bv a)) :
    (Term.select t x).bits m = (t.cells m).get (x.bits m) := rfl

@[simp] theorem cells_store {a c : Nat} (t : Term (.mem a c)) (x : Term (.bv a))
    (y : Term (.bv c)) :
    (Term.store t x y).cells m = (t.cells m).set (x.bits m) (y.bits m) := rfl

@[simp] theorem holds_nonZero (x : Term (.bv w)) : x.nonZero.holds m = (x.bits m != 0#w) := by
  rw [Term.nonZero, holds_ne]
  exact congrArg not (Bool.beq_comm (a := 0#w) (b := x.bits m))

@[simp] theorem bits_ofTruth (p : Term .bool) :
    (Term.ofTruth p).bits m = BitVec.ofBool (p.holds m) := by
  rw [Term.ofTruth, bits_ite]
  cases p.holds m <;> rfl

@[simp] theorem holds_slt (x y : Term (.bv w)) :
    (Term.slt x y).holds m = (x.bits m).slt (y.bits m) := by
  unfold Term.slt
  split <;> rfl

@[simp] theorem holds_sle (x y : Term (.bv w)) :
    (Term.sle x y).holds m = (x.bits m).sle (y.bits m) := by
  unfold Term.sle
  split <;> rfl

end Spine

namespace SomeTerm

variable {m : Model}

theorem value_word {w : Nat} (x : Term (.bv w)) :
    SomeTerm.value m ⟨_, x⟩ = .word (x.bits m) := rfl

/-- The condition of a word tells whether its value is zero. -/
theorem condition_value {t : SomeTerm} {p : Term .bool} (h : t.condition = .ok p) :
    (t.value m).nonZero? = some (p.holds m) := by
  obtain ⟨s, x⟩ := t
  cases s with
  | bv w =>
    cases h
    rw [Spine.holds_nonZero]; rfl
  | _ => cases h

end SomeTerm

end Precond
