import Mathlib.Logic.Function.Basic
import Precond.IR.Exp

/-! Elimination of local bindings. The number of bindings decides how deep the elimination goes, and
a body has as many bindings after its variable is replaced by an expression without any. So the
elimination satisfies the equations of an unbounded recursion (`Exp.inlineLets_letIn`,
`Exp.inlineLets_shape`), and comes with its own induction principle (`Exp.inlineLets_induct`). -/

namespace Precond.IR

/-- An operator with its widths and its endianness, and what is at each place of an operand. -/
inductive Shape (α : Type)
  | var (v : Var)
  | lit {w : Nat} (x : BitVec w)
  | load (mem addr : α) (endian : Endian) (size : Int)
  | store (mem addr value : α) (endian : Endian) (size : Int)
  | bin (op : BinOp) (lhs rhs : α)
  | un (op : UnOp) (arg : α)
  | cast (kind : CastKind) (width : Int) (arg : α)
  | ite (cond yes no : α)
  | extract (hi lo : Int) (arg : α)
  | concat (lhs rhs : α)
  | unknown (desc : String) (type : Ty)
  | letIn (v : Var) (value body : α)
  deriving DecidableEq, Repr

namespace Shape

variable {α β γ : Type}

def map (f : α → β) : Shape α → Shape β
  | var v => var v
  | lit x => lit x
  | load m a e n => load (f m) (f a) e n
  | store m a v e n => store (f m) (f a) (f v) e n
  | bin op l r => bin op (f l) (f r)
  | un op x => un op (f x)
  | cast k w x => cast k w (f x)
  | ite c y n => ite (f c) (f y) (f n)
  | extract hi lo x => extract hi lo (f x)
  | concat l r => concat (f l) (f r)
  | unknown d t => unknown d t
  | letIn v x b => letIn v (f x) (f b)

/-- The operands, in the order of their places. -/
def parts : Shape α → List α
  | var _ | lit _ | unknown .. => []
  | load m a _ _ => [m, a]
  | store m a v _ _ => [m, a, v]
  | bin _ l r | concat l r => [l, r]
  | un _ x | cast _ _ x | extract _ _ x => [x]
  | ite c y n => [c, y, n]
  | letIn _ v b => [v, b]

def kind : Shape α → ExpKind
  | var _ => .var
  | lit _ => .lit
  | load .. => .load
  | store .. => .store
  | bin .. => .bin
  | un .. => .un
  | cast .. => .cast
  | ite .. => .ite
  | extract .. => .extract
  | concat .. => .concat
  | unknown .. => .unknown
  | letIn .. => .letIn

/-- The operator with other operands, as many as it has places. -/
def refill : Shape α → List α → Shape α
  | load _ _ e n, [m, a] => load m a e n
  | store _ _ _ e n, [m, a, v] => store m a v e n
  | bin op _ _, [l, r] => bin op l r
  | un op _, [x] => un op x
  | cast k w _, [x] => cast k w x
  | ite _ _ _, [c, y, n] => ite c y n
  | extract hi lo _, [x] => extract hi lo x
  | concat _ _, [l, r] => concat l r
  | letIn v _ _, [x, b] => letIn v x b
  | s, _ => s

def toExp : Shape Exp → Exp
  | var v => .var v
  | lit x => .lit x
  | load m a e n => .load m a e n
  | store m a v e n => .store m a v e n
  | bin op l r => .bin op l r
  | un op x => .un op x
  | cast k w x => .cast k w x
  | ite c y n => .ite c y n
  | extract hi lo x => .extract hi lo x
  | concat l r => .concat l r
  | unknown d t => .unknown d t
  | letIn v x b => .letIn v x b

@[simp] theorem map_id (s : Shape α) : s.map id = s := by cases s <;> rfl

@[simp] theorem map_map (f : α → β) (g : β → γ) (s : Shape α) : (s.map f).map g = s.map (g ∘ f) := by
  cases s <;> rfl

@[simp] theorem parts_map (f : α → β) (s : Shape α) : (s.map f).parts = s.parts.map f := by
  cases s <;> rfl

@[simp] theorem kind_map (f : α → β) (s : Shape α) : (s.map f).kind = s.kind := by cases s <;> rfl

@[simp] theorem kind_toExp (s : Shape Exp) : s.toExp.kind = s.kind := by cases s <;> rfl

theorem map_congr {f g : α → β} {s : Shape α} (h : ∀ p ∈ s.parts, f p = g p) : s.map f = s.map g := by
  cases s <;> simp_all [map, parts]

/-- Operands that read as the others became are put at the places of the others. -/
theorem map_refill {f : α → β} {g : α → β} {s : Shape α} {ps : List α}
    (h : ps.map f = s.parts.map g) : (s.refill ps).map f = s.map g := by
  cases s <;> simp_all only [parts, List.map_nil, List.map_cons, List.map_eq_nil_iff,
    List.map_eq_cons_iff] <;> grind [map, refill]

theorem parts_refill {s : Shape α} {ps : List α} (h : ps.length = s.parts.length) :
    (s.refill ps).parts = ps := by
  cases s <;> rcases ps with _ | ⟨a, _ | ⟨b, _ | ⟨c, _ | ⟨d, ps⟩⟩⟩⟩ <;> simp_all [parts, refill]

theorem map_eq_self {f : α → α} {s : Shape α} (h : ∀ p ∈ s.parts, f p = p) : s.map f = s :=
  (map_congr h).trans s.map_id

end Shape

namespace Exp

/-- The operator of an expression with its operands. -/
def shape : Exp → Shape Exp
  | var v => .var v
  | lit x => .lit x
  | load m a e n => .load m a e n
  | store m a v e n => .store m a v e n
  | bin op l r => .bin op l r
  | un op x => .un op x
  | cast k w x => .cast k w x
  | ite c y n => .ite c y n
  | extract hi lo x => .extract hi lo x
  | concat l r => .concat l r
  | unknown d t => .unknown d t
  | letIn v x b => .letIn v x b

variable {e x b : Exp} {u v : Var} {n : Nat}

@[simp] theorem toExp_shape (e : Exp) : e.shape.toExp = e := by cases e <;> rfl

@[simp] theorem shape_toExp (s : Shape Exp) : s.toExp.shape = s := by cases s <;> rfl

@[simp] theorem parts_shape (e : Exp) : e.shape.parts = e.children := by cases e <;> rfl

@[simp] theorem kind_shape (e : Exp) : e.shape.kind = e.kind := by cases e <;> rfl

theorem shape_injective : Function.Injective shape :=
  Function.LeftInverse.injective toExp_shape

/-! ### Counting -/

/-- Neither the expression nor a part of it binds a variable. -/
def LetFree (e : Exp) : Prop := ∀ p ∈ e.walk, p.kind ≠ .letIn

theorem countLets_part (he : e.kind ≠ .letIn) {c : Exp} (hc : c ∈ e.children) :
    c.countLets ≤ e.countLets := by
  cases e <;> grind [children, countLets, kind]

theorem countLets_eq_zero (he : e.kind ≠ .letIn) :
    e.countLets = 0 ↔ ∀ c ∈ e.children, c.countLets = 0 := by
  cases e <;> simp_all [children, countLets, kind, and_assoc]

/-- The induction on an expression, for all operators alike. -/
theorem induct_children {P : Exp → Prop} (h : ∀ e : Exp, (∀ c ∈ e.children, P c) → P e) (e : Exp) :
    P e := by
  induction e <;> exact h _ (by simp_all [children])

theorem letFree_iff (e : Exp) : e.LetFree ↔ e.countLets = 0 := by
  unfold LetFree
  induction e with
  | var | lit | unknown => simp [walk, countLets, kind]
  | letIn => simp [walk, countLets, kind]
  | _ => simp_all [walk, countLets, kind, or_imp, forall_and, and_assoc]

/-- A replacement without bindings leaves their number as it is. -/
theorem countLets_replaceVar (hx : x.countLets = 0) (e : Exp) (v : Var) :
    (e.replaceVar v x).countLets = e.countLets := by
  induction e with
  | var u =>
    rw [replaceVar]
    split
    · exact hx
    · rfl
  | letIn u y b ihy ihb =>
    rw [replaceVar, countLets, countLets, ihy]
    split
    · rfl
    · rw [ihb]
  | _ => simp_all [replaceVar, countLets]

/-- A replacement leaves the operator of everything but a variable as it is, and goes on at each of
the operands, except in the body of a binding of the same variable. -/
theorem replaceVar_shape (x : Exp) (he : e.kind ≠ .var) (hbound : ∀ y b, e ≠ letIn v y b) :
    (e.replaceVar v x).shape = e.shape.map (·.replaceVar v x) := by
  cases e with
  | var u => exact absurd rfl he
  | letIn u y b =>
    have hu : u ≠ v := fun h => hbound y b (by rw [h])
    rw [replaceVar, if_neg hu]
    rfl
  | _ => rfl

/-! ### One level -/

theorem mapLets_shape (f : Var → Exp → Exp → Exp) (he : e.kind ≠ .letIn) :
    (e.mapLets f).shape = e.shape.map (mapLets f) := by
  cases e <;> first | rfl | exact absurd rfl he

/-- Only the bindings that are there count. -/
theorem mapLets_congr {f g : Var → Exp → Exp → Exp}
    (h : ∀ v x b, x.countLets + b.countLets < e.countLets → f v x b = g v x b) :
    e.mapLets f = e.mapLets g := by
  induction e using induct_children with
  | h e ih =>
    by_cases he : e.kind = .letIn
    · cases e with
      | letIn v x b => exact h v x b (Nat.lt_succ_self _)
      | _ => cases he
    · refine shape_injective ?_
      rw [mapLets_shape f he, mapLets_shape g he]
      refine Shape.map_congr fun c hc => ?_
      rw [parts_shape] at hc
      exact ih c hc fun v x b hb => h v x b (Nat.lt_of_lt_of_le hb (countLets_part he hc))

theorem mapLets_of_letFree {f : Var → Exp → Exp → Exp} (he : e.countLets = 0) : e.mapLets f = e := by
  induction e with
  | letIn => cases he
  | _ => simp_all [mapLets, countLets]

theorem countLets_mapLets {f : Var → Exp → Exp → Exp}
    (h : ∀ v x b, x.countLets + b.countLets < e.countLets → (f v x b).countLets = 0) :
    (e.mapLets f).countLets = 0 := by
  induction e using induct_children with
  | h e ih =>
    by_cases he : e.kind = .letIn
    · cases e with
      | letIn v x b => exact h v x b (Nat.lt_succ_self _)
      | _ => cases he
    · have hshape := mapLets_shape f he
      have hkind : (e.mapLets f).kind ≠ .letIn := by
        rwa [← kind_shape, hshape, Shape.kind_map, kind_shape]
      rw [countLets_eq_zero hkind, ← parts_shape, hshape, Shape.parts_map, parts_shape]
      refine List.forall_mem_map.mpr fun c hc => ih c hc fun v x b hb => ?_
      exact h v x b (Nat.lt_of_lt_of_le hb (countLets_part he hc))

/-! ### All levels -/

/-- With a level for each binding none is left. -/
theorem countLets_inlineLetsTo (h : e.countLets ≤ n) : (inlineLetsTo n e).countLets = 0 := by
  induction n generalizing e with
  | zero => exact Nat.le_zero.mp h
  | succ n ih =>
    refine countLets_mapLets fun v x b hb => ih ?_
    rw [countLets_replaceVar (ih (by omega))]
    omega

/-- Further levels change nothing. -/
theorem inlineLetsTo_succ (h : e.countLets ≤ n) : inlineLetsTo (n + 1) e = inlineLetsTo n e := by
  induction n generalizing e with
  | zero => exact mapLets_of_letFree (Nat.le_zero.mp h)
  | succ n ih =>
    refine mapLets_congr fun v x b hb => ?_
    have hx : x.countLets ≤ n := by omega
    rw [ih hx, ih]
    rw [countLets_replaceVar (countLets_inlineLetsTo hx)]
    omega

theorem inlineLetsTo_eq (h : e.countLets ≤ n) : inlineLetsTo n e = e.inlineLets := by
  induction h with
  | refl => rfl
  | step h ih => exact (inlineLetsTo_succ h).trans ih

theorem countLets_inlineLets (e : Exp) : e.inlineLets.countLets = 0 :=
  countLets_inlineLetsTo (Nat.le_refl _)

theorem letFree_inlineLets (e : Exp) : e.inlineLets.LetFree :=
  (letFree_iff _).mpr e.countLets_inlineLets

theorem countLets_body (v : Var) (x b : Exp) :
    (b.replaceVar v x.inlineLets).countLets = b.countLets :=
  countLets_replaceVar x.countLets_inlineLets b v

theorem inlineLets_of_letFree (he : e.countLets = 0) : e.inlineLets = e := by
  rw [inlineLets, he]
  rfl

/-- The value, without its bindings, takes the place of the variable, and then the bindings of the
body are eliminated. -/
theorem inlineLets_letIn (v : Var) (x b : Exp) :
    (letIn v x b).inlineLets = (b.replaceVar v x.inlineLets).inlineLets := by
  show inlineLetsTo (x.countLets + b.countLets) (b.replaceVar v (inlineLetsTo _ x)) = _
  rw [inlineLetsTo_eq (Nat.le_add_right ..), inlineLetsTo_eq]
  rw [countLets_body]
  exact Nat.le_add_left ..

/-- What is not a binding keeps its operator, and the elimination goes on at each of the operands. -/
theorem inlineLets_shape (he : e.kind ≠ .letIn) :
    e.inlineLets.shape = e.shape.map inlineLets := by
  have hn : e.inlineLets = inlineLetsTo (e.countLets + 1) e :=
    (inlineLetsTo_eq (Nat.le_succ _)).symm
  rw [hn, inlineLetsTo, mapLets_shape _ he]
  refine Shape.map_congr fun c hc => ?_
  rw [parts_shape] at hc
  rw [← inlineLetsTo_eq (Nat.le_succ_of_le (countLets_part he hc))]
  rfl

/-- Eliminating again changes nothing. -/
theorem inlineLets_idem (e : Exp) : e.inlineLets.inlineLets = e.inlineLets :=
  inlineLets_of_letFree e.countLets_inlineLets

/-- The elimination goes from a binding to its value, and then to its body with the value in place,
and from everything else to the operands. -/
theorem inlineLets_induct {P : Exp → Prop}
    (letIn : ∀ v x b, P x → P (b.replaceVar v x.inlineLets) → P (letIn v x b))
    (node : ∀ e : Exp, e.kind ≠ .letIn → (∀ c ∈ e.children, P c) → P e) (e : Exp) : P e := by
  suffices h : ∀ n e, countLets e ≤ n → P e from h _ e (Nat.le_refl _)
  intro n
  -- the number of bindings comes first, since the body with the value in place is no operand
  induction n using Nat.strongRecOn with
  | ind n ihn =>
    intro e
    induction e using induct_children with
    | h e ih =>
      intro hn
      by_cases he : e.kind = .letIn
      · cases e with
        | letIn v x b =>
          rw [countLets] at hn
          exact letIn v x b (ihn _ (by omega) x (Nat.le_refl _))
            (ihn b.countLets (by omega) _ (Nat.le_of_eq (countLets_body v x b)))
        | _ => cases he
      · exact node e he fun c hc => ih c hc (Nat.le_trans (countLets_part he hc) hn)

/-! ### Bindings as a scope -/

/-- The expression without its bindings: each variable stands for what the innermost binding of it
stands for, whatever names its own variables have. -/
def expand (Γ : Var → Exp) : Exp → Exp
  | var u => Γ u
  | e@(lit _) | e@(unknown ..) => e
  | load m a e n => load (m.expand Γ) (a.expand Γ) e n
  | store m a y e n => store (m.expand Γ) (a.expand Γ) (y.expand Γ) e n
  | bin op l r => bin op (l.expand Γ) (r.expand Γ)
  | un op y => un op (y.expand Γ)
  | cast k w y => cast k w (y.expand Γ)
  | ite c y n => ite (c.expand Γ) (y.expand Γ) (n.expand Γ)
  | extract hi lo y => extract hi lo (y.expand Γ)
  | concat l r => concat (l.expand Γ) (r.expand Γ)
  | letIn v x b => b.expand (Function.update Γ v (x.expand Γ))

/-- Where a binding is, no other variable that its body reads stands for an expression of the bound
name. -/
def Uncaptured (Γ : Var → Exp) : Exp → Prop
  | var _ | lit _ | unknown .. => True
  | load m a _ _ => m.Uncaptured Γ ∧ a.Uncaptured Γ
  | store m a v _ _ => m.Uncaptured Γ ∧ a.Uncaptured Γ ∧ v.Uncaptured Γ
  | bin _ l r | concat l r => l.Uncaptured Γ ∧ r.Uncaptured Γ
  | un _ x | cast _ _ x | extract _ _ x => x.Uncaptured Γ
  | ite c y n => c.Uncaptured Γ ∧ y.Uncaptured Γ ∧ n.Uncaptured Γ
  | letIn v x b => x.Uncaptured Γ ∧ (∀ u ∈ b.freeVars, u ≠ v → v ∉ (Γ u).freeVars) ∧
      b.Uncaptured (Function.update Γ v (x.expand Γ))

instance decidableUncaptured (Γ : Var → Exp) : (e : Exp) → Decidable (e.Uncaptured Γ)
  | var _ | lit _ | unknown .. => isTrue trivial
  | load m a _ _ | bin _ m a | concat m a =>
    have := decidableUncaptured Γ m
    have := decidableUncaptured Γ a
    inferInstanceAs (Decidable (_ ∧ _))
  | store m a y _ _ | ite m a y =>
    have := decidableUncaptured Γ m
    have := decidableUncaptured Γ a
    have := decidableUncaptured Γ y
    inferInstanceAs (Decidable (_ ∧ _ ∧ _))
  | un _ y | cast _ _ y | extract _ _ y => decidableUncaptured Γ y
  | letIn v x b =>
    have := decidableUncaptured Γ x
    have := decidableUncaptured (Function.update Γ v (x.expand Γ)) b
    inferInstanceAs (Decidable (_ ∧ (∀ u ∈ b.freeVars, u ≠ v → v ∉ (Γ u).freeVars) ∧ _))

/-- The expression `x` can take the place of the variable: on the way to the variable no name is bound
that `x` reads. -/
def Admits (v : Var) (x : Exp) : Exp → Prop
  | var _ | lit _ | unknown .. => True
  | load m a _ _ => Admits v x m ∧ Admits v x a
  | store m a y _ _ => Admits v x m ∧ Admits v x a ∧ Admits v x y
  | bin _ l r | concat l r => Admits v x l ∧ Admits v x r
  | un _ y | cast _ _ y | extract _ _ y => Admits v x y
  | ite c y n => Admits v x c ∧ Admits v x y ∧ Admits v x n
  | letIn u y b => Admits v x y ∧ (u ≠ v → (v ∈ b.freeVars → u ∉ x.freeVars) ∧ Admits v x b)

variable {Γ Δ : Var → Exp}

theorem expand_shape (he : e.kind ≠ .var) (hlet : e.kind ≠ .letIn) :
    (e.expand Γ).shape = e.shape.map (expand Γ) := by
  cases e <;> first | rfl | exact absurd rfl he | exact absurd rfl hlet

theorem uncaptured_iff (he : e.kind ≠ .letIn) :
    e.Uncaptured Γ ↔ ∀ c ∈ e.children, c.Uncaptured Γ := by
  cases e <;> simp_all [Uncaptured, children, kind]

theorem admits_iff (he : e.kind ≠ .letIn) : Admits v x e ↔ ∀ c ∈ e.children, Admits v x c := by
  cases e <;> simp_all [Admits, children, kind]

theorem mem_freeVars (he : e.kind ≠ .var) (hlet : e.kind ≠ .letIn) :
    u ∈ e.freeVars ↔ ∃ c ∈ e.children, u ∈ c.freeVars := by
  cases e <;> simp_all [freeVars, children, kind]

theorem mem_freeVars_letIn : u ∈ (letIn v x b).freeVars ↔ u ∈ x.freeVars ∨ u ∈ b.freeVars ∧ u ≠ v := by
  simp [freeVars]

/-- The induction with all operators alike but bindings. -/
theorem induct_letIn {P : Exp → Prop} (var : ∀ u, P (var u))
    (letIn : ∀ v x b, P x → P b → P (letIn v x b))
    (node : ∀ e : Exp, e.kind ≠ .var → e.kind ≠ .letIn → (∀ c ∈ e.children, P c) → P e) (e : Exp) :
    P e := by
  induction e using induct_children with
  | h e ih =>
    cases e with
    | var u => exact var u
    | letIn v x b => exact letIn v x b (ih x List.mem_cons_self) (ih b (by simp [children]))
    | _ => exact node _ nofun nofun ih

theorem children_of_shape {f : Exp → Exp} {e' : Exp} (h : e'.shape = e.shape.map f) :
    e'.children = e.children.map f := by
  rw [← parts_shape, h, Shape.parts_map, parts_shape]

theorem kind_of_shape {f : Exp → Exp} {e' : Exp} (h : e'.shape = e.shape.map f) :
    e'.kind = e.kind := by
  rw [← kind_shape, h, Shape.kind_map, kind_shape]

/-- Only what the variables of the expression stand for counts. -/
theorem expand_congr (h : ∀ u ∈ e.freeVars, Γ u = Δ u) : e.expand Γ = e.expand Δ := by
  induction e using induct_letIn generalizing Γ Δ with
  | var u => exact h u List.mem_cons_self
  | letIn v x b ihx ihb =>
    simp only [mem_freeVars_letIn] at h
    have hx : x.expand Γ = x.expand Δ := ihx fun u hu => h u (.inl hu)
    refine ihb fun u hu => ?_
    rw [hx]
    by_cases huv : u = v
    · rw [huv, Function.update_self, Function.update_self]
    · rw [Function.update_of_ne huv, Function.update_of_ne huv]
      exact h u (.inr ⟨hu, huv⟩)
  | node e he hlet ih =>
    refine shape_injective ?_
    rw [expand_shape he hlet, expand_shape he hlet]
    refine Shape.map_congr fun c hc => ?_
    rw [parts_shape] at hc
    exact ih c hc fun u hu => h u ((mem_freeVars he hlet).mpr ⟨c, hc, hu⟩)

theorem Uncaptured.congr (h : ∀ u ∈ e.freeVars, Γ u = Δ u) (he : e.Uncaptured Γ) :
    e.Uncaptured Δ := by
  induction e using induct_letIn generalizing Γ Δ with
  | var => trivial
  | letIn v x b ihx ihb =>
    simp only [mem_freeVars_letIn] at h
    have hx : ∀ u ∈ x.freeVars, Γ u = Δ u := fun u hu => h u (.inl hu)
    refine ⟨ihx hx he.1, fun u hu huv => h u (.inr ⟨hu, huv⟩) ▸ he.2.1 u hu huv,
      ihb (fun u hu => ?_) he.2.2⟩
    rw [expand_congr hx]
    by_cases huv : u = v
    · rw [huv, Function.update_self, Function.update_self]
    · rw [Function.update_of_ne huv, Function.update_of_ne huv]
      exact h u (.inr ⟨hu, huv⟩)
  | node e hv hlet ih =>
    rw [uncaptured_iff hlet] at he ⊢
    exact fun c hc => ih c hc (fun u hu => h u ((mem_freeVars hv hlet).mpr ⟨c, hc, hu⟩)) (he c hc)

theorem expand_of_letFree (he : e.countLets = 0) : e.expand .var = e := by
  induction e using induct_letIn with
  | var => rfl
  | letIn => cases he
  | node e hv hlet ih =>
    rw [countLets_eq_zero hlet] at he
    refine shape_injective ?_
    rw [expand_shape hv hlet]
    refine Shape.map_eq_self fun c hc => ?_
    rw [parts_shape] at hc
    exact ih c hc (he c hc)

/-- What stands behind a variable of an expression without bindings is read by what the expression
becomes. -/
theorem mem_freeVars_expand {z : Var} (he : e.countLets = 0) (hz : z ∈ e.freeVars)
    (hu : u ∈ (Γ z).freeVars) : u ∈ (e.expand Γ).freeVars := by
  induction e using induct_letIn with
  | var w =>
    rw [freeVars, List.mem_singleton] at hz
    subst hz
    exact hu
  | letIn => cases he
  | node e hv hlet ih =>
    have hshape := expand_shape (Γ := Γ) hv hlet
    have hkind := kind_of_shape hshape
    rw [countLets_eq_zero hlet] at he
    obtain ⟨c, hc, hzc⟩ := (mem_freeVars hv hlet).mp hz
    rw [mem_freeVars (hkind ▸ hv) (hkind ▸ hlet), children_of_shape hshape]
    exact ⟨_, List.mem_map_of_mem hc, ih c hc (he c hc) hzc⟩

/-- A replacement reads what was read but for the variable, and what the replacement reads if the
variable was. -/
theorem mem_freeVars_replaceVar (hu : u ∈ (e.replaceVar v x).freeVars) :
    (u ∈ e.freeVars ∧ u ≠ v) ∨ (v ∈ e.freeVars ∧ u ∈ x.freeVars) := by
  induction e using induct_letIn with
  | var w =>
    rw [replaceVar] at hu
    split at hu
    next hw => exact .inr ⟨by rw [hw, freeVars]; exact List.mem_cons_self, hu⟩
    next hw =>
      rw [freeVars, List.mem_singleton] at hu
      exact .inl ⟨by rw [hu, freeVars]; exact List.mem_cons_self, hu ▸ hw⟩
  | letIn w y b ihy ihb =>
    rw [replaceVar, mem_freeVars_letIn] at hu
    simp only [mem_freeVars_letIn]
    rcases hu with hu | ⟨hu, huw⟩
    · exact (ihy hu).imp (fun h => ⟨.inl h.1, h.2⟩) fun h => ⟨.inl h.1, h.2⟩
    · by_cases hw : w = v
      · rw [if_pos hw] at hu
        exact .inl ⟨.inr ⟨hu, huw⟩, hw ▸ huw⟩
      · rw [if_neg hw] at hu
        exact (ihb hu).imp (fun h => ⟨.inr ⟨h.1, huw⟩, h.2⟩) fun h => ⟨.inr ⟨h.1, Ne.symm hw⟩, h.2⟩
  | node e hv hlet ih =>
    have hshape := replaceVar_shape (v := v) x hv fun y b h => hlet (h ▸ rfl)
    have hkind := kind_of_shape hshape
    rw [mem_freeVars (hkind ▸ hv) (hkind ▸ hlet), children_of_shape hshape] at hu
    obtain ⟨c', hc', hu⟩ := hu
    obtain ⟨c, hc, rfl⟩ := List.mem_map.mp hc'
    simp only [mem_freeVars hv hlet]
    exact (ih c hc hu).imp (fun h => ⟨⟨c, hc, h.1⟩, h.2⟩) fun h => ⟨⟨c, hc, h.1⟩, h.2⟩

/-- What the variable stands for in a scope without captures can take its place. -/
theorem Uncaptured.admits (hv : Γ v = x) (he : e.Uncaptured Γ) : Admits v x e := by
  induction e using induct_letIn generalizing Γ with
  | var => trivial
  | letIn w y b ihy ihb =>
    refine ⟨ihy hv he.1, fun hw => ⟨fun hb => hv ▸ he.2.1 v hb (Ne.symm hw), ihb ?_ he.2.2⟩⟩
    rw [Function.update_of_ne (Ne.symm hw), hv]
  | node e hvar hlet ih =>
    rw [uncaptured_iff hlet] at he
    exact (admits_iff hlet).mpr fun c hc => ih c hc hv (he c hc)

/-- A name that is bound on the way does not matter for what the variable stands for. -/
theorem update_swap {y : Exp} {w : Var} (hw : w ≠ v) (hx : v ∈ b.freeVars → w ∉ x.freeVars) :
    ∀ u ∈ b.freeVars,
      Function.update (Function.update Γ w y) v (x.expand (Function.update Γ w y)) u =
        Function.update (Function.update Γ v (x.expand Γ)) w y u := by
  intro u hu
  rw [Function.update_comm (Ne.symm hw)]
  by_cases huv : u = v
  · subst huv
    rw [Function.update_self, Function.update_self]
    exact expand_congr fun z hz => Function.update_of_ne (fun hzw : z = w => hx hu (hzw ▸ hz)) _ _
  · rw [Function.update_of_ne huv, Function.update_of_ne huv]

/-- Where the value is put in the place of the variable, the variable might as well stand for what the
value becomes. -/
theorem Admits.expand_replaceVar (he : Admits v x e) :
    (e.replaceVar v x).expand Γ = e.expand (Function.update Γ v (x.expand Γ)) := by
  induction e using induct_letIn generalizing Γ with
  | var w =>
    rw [replaceVar]
    split
    next hw => rw [hw, expand, Function.update_self]
    next hw => rw [expand, expand, Function.update_of_ne hw]
  | letIn w y b ihy ihb =>
    obtain ⟨hy, hb⟩ := he
    rw [replaceVar, expand, expand, ihy hy]
    by_cases hw : w = v
    · rw [if_pos hw, hw, Function.update_idem]
    · obtain ⟨hx, hb⟩ := hb hw
      rw [if_neg hw, ihb hb]
      exact expand_congr (update_swap hw hx)
  | node e hv hlet ih =>
    have hshape := replaceVar_shape (v := v) x hv fun y b h => hlet (h ▸ rfl)
    have hkind := kind_of_shape hshape
    rw [admits_iff hlet] at he
    refine shape_injective ?_
    rw [expand_shape (hkind ▸ hv) (hkind ▸ hlet), expand_shape hv hlet, hshape, Shape.map_map]
    refine Shape.map_congr fun c hc => ?_
    rw [parts_shape] at hc
    exact ih c hc (he c hc)

theorem uncaptured_of_letFree (he : e.countLets = 0) : e.Uncaptured Γ := by
  induction e using induct_letIn with
  | var => trivial
  | letIn => cases he
  | node e hv hlet ih =>
    rw [countLets_eq_zero hlet] at he
    exact (uncaptured_iff hlet).mpr fun c hc => ih c hc (he c hc)

theorem Admits.uncaptured_replaceVar (hx : x.countLets = 0) (he : Admits v x e)
    (hu : e.Uncaptured (Function.update Γ v (x.expand Γ))) : (e.replaceVar v x).Uncaptured Γ := by
  induction e using induct_letIn generalizing Γ with
  | var w =>
    rw [replaceVar]
    split
    · exact uncaptured_of_letFree hx
    · trivial
  | letIn w y b ihy ihb =>
    obtain ⟨hy, hb⟩ := he
    obtain ⟨huy, hread, hub⟩ := hu
    refine ⟨ihy hy huy, fun u hu huw => ?_, ?_⟩
    · by_cases hw : w = v
      · subst hw
        rw [if_pos rfl] at hu
        have := hread u hu huw
        rwa [Function.update_of_ne huw] at this
      · rw [if_neg hw] at hu
        rcases mem_freeVars_replaceVar hu with ⟨hub, huv⟩ | ⟨hvb, hux⟩
        · have := hread u hub huw
          rwa [Function.update_of_ne huv] at this
        · have := hread v hvb (Ne.symm hw)
          rw [Function.update_self] at this
          exact fun hmem => this (mem_freeVars_expand hx hux hmem)
    · rw [hy.expand_replaceVar]
      by_cases hw : w = v
      · subst hw
        rw [if_pos rfl]
        rwa [Function.update_idem] at hub
      · obtain ⟨hxb, hb⟩ := hb hw
        rw [if_neg hw]
        exact ihb hb (hub.congr fun u hu => (update_swap hw hxb u hu).symm)
  | node e hv hlet ih =>
    have hshape := replaceVar_shape (v := v) x hv fun y b h => hlet (h ▸ rfl)
    have hkind := kind_of_shape hshape
    rw [admits_iff hlet] at he
    rw [uncaptured_iff hlet] at hu
    rw [uncaptured_iff (hkind ▸ hlet), children_of_shape hshape]
    exact List.forall_mem_map.mpr fun c hc => ih c hc (he c hc) (hu c hc)

/-- Without captures the elimination gives what the bindings as a scope give. -/
theorem inlineLets_eq_expand (he : e.Uncaptured .var) : e.inlineLets = e.expand .var := by
  induction e using inlineLets_induct with
  | letIn v x b ihx ihb =>
    obtain ⟨hx, -, hb⟩ := he
    have hfree : x.inlineLets.countLets = 0 := x.countLets_inlineLets
    rw [← ihx hx] at hb
    have hadmits : Admits v x.inlineLets b := hb.admits (Function.update_self ..)
    rw [← expand_of_letFree hfree] at hb
    rw [inlineLets_letIn, ihb (hadmits.uncaptured_replaceVar hfree hb), hadmits.expand_replaceVar,
      expand_of_letFree hfree, expand, ihx hx]
  | node e hlet ih =>
    by_cases hv : e.kind = .var
    · cases e <;> cases hv
      rfl
    · rw [uncaptured_iff hlet] at he
      refine shape_injective ?_
      rw [inlineLets_shape hlet, expand_shape hv hlet]
      refine Shape.map_congr fun c hc => ?_
      rw [parts_shape] at hc
      exact ih c hc (he c hc)

end Exp

end Precond.IR
