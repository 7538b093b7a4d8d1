import Precond.Proofs.Exact.Translation
import Precond.Proofs.Run.Typing
import Precond.Proofs.Walk.Bindings
import Precond.Proofs.Walk.Tame

/-! Expressions that follow the typing rules are translated, unknown ones included
(`Walk.translate_typed`): no check on the way is stricter than the rules.

Expressions that are translated follow the typing rules, but for one rule: that a binding gives its
variable a value of the variable's own type is not looked at (`Walk.translate_typed_iff`). What an
operation on terms asks of the sorts of its operands is what the rule of its expression asks. -/

namespace Precond.Walk

open IR

variable {side : Side} {V : Table Var SomeTerm} {w w' : World} {e : Exp} {s s' : TSort}

/-- The action gives a term of the sort and no conditions, and leaves the bindings as they are. -/
def Supplies (side : Side) (V : Table Var SomeTerm) (s : TSort) (act : Walk (SomeTerm × List Hook)) :
    Prop :=
  ∀ w, (w.env side).vars = V →
    ∃ (t : Term s) (w' : World), act w = .ok (⟨s, t⟩, []) w' ∧ (w'.env side).vars = V

namespace Supplies

theorem andThen {x : Walk (SomeTerm × List Hook)}
    {k : SomeTerm × List Hook → Walk (SomeTerm × List Hook)} (hx : Supplies side V s x)
    (hk : ∀ t : Term s, Supplies side V s' (k (⟨s, t⟩, []))) : Supplies side V s' (x >>= k) := by
  intro w hw
  obtain ⟨t, w₁, h₁, hw₁⟩ := hx w hw
  obtain ⟨u, w₂, h₂, hw₂⟩ := hk t w₁ hw₁
  exact ⟨u, w₂, (bind_of_ok h₁).trans h₂, hw₂⟩

/-- The operation on the terms of the parts succeeds. -/
theorem operation {op : Except Fault SomeTerm} (h : ∃ t : Term s, op = .ok ⟨s, t⟩) :
    Supplies side V s ((liftM op : Walk SomeTerm) >>= fun z => pure (z, [])) := by
  obtain ⟨t, rfl⟩ := h
  exact fun w hw => ⟨t, w, rfl, hw⟩

theorem binding {v : Var} {x : Term s'} {act : Walk (SomeTerm × List Hook)}
    (h : Supplies side (V.put v ⟨s', x⟩) s act) :
    Supplies side V s (Walk.binding side v ⟨s', x⟩ act >>= fun r => pure (r.1, [] ++ [] ++ r.2)) := by
  intro w hw
  have hbound := Outcome.binding (F := fun _ => False)
    (P := fun r : SomeTerm × List Hook => ∃ t : Term s, r = (⟨s, t⟩, [])) hw fun w₁ hw₁ => by
      obtain ⟨t, w₂, h₂, hw₂⟩ := h w₁ hw₁
      exact .intro (fun _ _ hr => by cases h₂.symm.trans hr; exact ⟨⟨t, rfl⟩, hw₂⟩)
        fun _ _ hf => by cases h₂.symm.trans hf
  obtain ⟨_, w', hw', ⟨t, rfl⟩, hV⟩ := hbound.succeeds fun _ => id
  exact ⟨t, w', bind_of_ok hw', hV⟩

theorem fresh {type : Ty} (hs : type.sort = .ok s) (name : String) :
    Supplies side V s (on side (Env.fresh name type) >>= fun t => pure (t, [])) := by
  intro w hw
  let names := (w.env side).names
  have hact : Env.fresh name type (w.env side) =
      .ok ⟨s, .const (names.fresh name).1 s⟩ { w.env side with names := (names.fresh name).2 } := by
    refine (EnvM.bind_of_ok (show Env.newName name (w.env side) = .ok _ _ from rfl)).trans ?_
    unfold Env.const
    rw [hs]
    rfl
  have hon : on side (Env.fresh name type) w = .ok ⟨s, .const (names.fresh name).1 s⟩
      (w.setEnv side { w.env side with names := (names.fresh name).2 }) := by
    rw [on, hact]
  exact ⟨_, _, bind_of_ok hon, by rw [World.env_setEnv]; exact hw⟩

/-- The induction is on the typing, with the bindings in force at each part. -/
theorem translateWith (he : e.HasType s) (hb : Bound V e) :
    Supplies side V s (translateWith side silent e) := by
  induction he generalizing V with
  | @var v s hv =>
    intro w hw
    obtain ⟨⟨s', t⟩, ht, hsort⟩ := hb v (by simp [Exp.freeVars])
    obtain rfl : s = s' := Except.ok.inj (hv.symm.trans hsort)
    have hget : on side (Env.getVar v) w = .ok ⟨s, t⟩ w := by
      rw [on, Env.getVar_of_lookup (hw ▸ ht)]
      cases side <;> rfl
    exact ⟨t, w, bind_of_ok hget, hw⟩
  | @lit k x hk =>
    intro w hw
    refine ⟨.op (.bvLit x), w, ?_, hw⟩
    exact congrFun (if_neg (Nat.ne_of_gt hk)) w
  | load hm ha h0 hc ihm iha =>
    refine (ihm (hb.part fun v hv => by simp [Exp.freeVars, hv])).andThen fun x => ?_
    refine (iha (hb.part fun v hv => by simp [Exp.freeVars, hv])).andThen fun y => ?_
    exact operation (Term.load_sorted x y _ h0 hc)
  | store hm ha hv hsize hc ihm iha ihv =>
    refine (ihm (hb.part fun v hv => by simp [Exp.freeVars, hv])).andThen fun x => ?_
    refine (iha (hb.part fun v hv => by simp [Exp.freeVars, hv])).andThen fun y => ?_
    refine (ihv (hb.part fun v hv => by simp [Exp.freeVars, hv])).andThen fun z => ?_
    exact operation (Term.storeWord_sorted x y z _ hv.positive hsize hc)
  | arith hop hcmp hl hr ihl ihr =>
    refine (ihl (hb.part fun v hv => by simp [Exp.freeVars, hv])).andThen fun x => ?_
    refine (ihr (hb.part fun v hv => by simp [Exp.freeVars, hv])).andThen fun y => ?_
    exact operation (Term.binary_arith hop hcmp x y)
  | compare hcmp hl hr ihl ihr =>
    refine (ihl (hb.part fun v hv => by simp [Exp.freeVars, hv])).andThen fun x => ?_
    refine (ihr (hb.part fun v hv => by simp [Exp.freeVars, hv])).andThen fun y => ?_
    exact operation (Term.binary_compare hcmp x y)
  | shift hop hl hr ihl ihr =>
    refine (ihl (hb.part fun v hv => by simp [Exp.freeVars, hv])).andThen fun x => ?_
    refine (ihr (hb.part fun v hv => by simp [Exp.freeVars, hv])).andThen fun y => ?_
    exact operation (Term.binary_shift hop hl.positive x y)
  | un hx ih =>
    refine (ih (hb.part fun v hv => by simp [Exp.freeVars, hv])).andThen fun x => ?_
    exact operation (Term.unary_sorted _ x)
  | resize hk h0 hx ih =>
    refine (ih (hb.part fun v hv => by simp [Exp.freeVars, hv])).andThen fun x => ?_
    exact operation (Term.castTo_resize hk h0 x)
  | cut hk h0 hw hx ih =>
    refine (ih (hb.part fun v hv => by simp [Exp.freeVars, hv])).andThen fun x => ?_
    exact operation (Term.castTo_cut hk h0 hw x)
  | ite hc hy hn ihc ihy ihn =>
    refine (ihc (hb.part fun v hv => by simp [Exp.freeVars, hv])).andThen fun b => ?_
    refine (ihy (hb.part fun v hv => by simp [Exp.freeVars, hv])).andThen fun x => ?_
    refine (ihn (hb.part fun v hv => by simp [Exp.freeVars, hv])).andThen fun y => ?_
    exact operation (Term.choose_sorted b x y)
  | extract h0 hlo hhi hx ih =>
    refine (ih (hb.part fun v hv => by simp [Exp.freeVars, hv])).andThen fun x => ?_
    exact operation (Term.extractBits_sorted h0 hlo hhi x)
  | concat hl hr ihl ihr =>
    refine (ihl (hb.part fun v hv => by simp [Exp.freeVars, hv])).andThen fun x => ?_
    refine (ihr (hb.part fun v hv => by simp [Exp.freeVars, hv])).andThen fun y => ?_
    exact operation (Term.concatWords_sorted x y)
  | unknown hs => exact fresh hs _
  | letIn hs hv hbody ihv ihb =>
    refine (ihv (hb.part fun v hv => by simp [Exp.freeVars, hv])).andThen fun x => ?_
    exact binding (ihb (hb.body hs x))

end Supplies

/-- An expression that follows the typing rules, with its variables bound to terms of their sorts, has
a term of its type, which stands for a value of it. Where there are no side rules, no conditions come
with it. -/
theorem translate_typed (he : e.HasType s) (hb : Bound (w.env side).vars e) :
    (∃ (t : Term s) (w' : World), translate side e w = .ok ⟨s, t⟩ w' ∧
      Stands (w.env side).vars e ⟨s, t⟩) ∧
    ((w.env side).sideRules = [] →
      ∃ (t : Term s) (w' : World), translateChecked side e w = .ok (⟨s, t⟩, []) w' ∧
        Stands (w.env side).vars e ⟨s, t⟩) := by
  constructor
  · obtain ⟨t, w', hw', -⟩ := Supplies.translateWith he hb w rfl
    exact ⟨t, w', bind_of_ok hw', (translateWith_ok e hw').2.2⟩
  · intro hside
    let w₁ := { w with translations := w.translations + 1 }
    have henv : w₁.env side = w.env side := by cases side <;> rfl
    obtain ⟨t, w', hw', -⟩ := Supplies.translateWith he hb w₁ (congrArg Env.vars henv)
    have hchecked : translateChecked side e w = .ok (⟨s, t⟩, []) w' := by
      rw [← hw']
      show translateWith side (sideConditions side (w₁.env side).sideRules) e w₁ = _
      rw [henv, hside]
      rfl
    exact ⟨t, w', hchecked, (translateChecked_ok hside hchecked).2.2⟩

/-! A word that is not known is bound. Where it is not zero, it is shifted by an amount of another
width and written, and a byte is read back; otherwise its high end is taken. -/

def guessed : Exp :=
  .letIn loaded (.unknown "port" (.word 16))
    (.ite (.var loaded)
      (.load (.store (.var memory) (.var register1) (.bin .shl (.var loaded) (.lit 3#32)) .little 16)
        (.var register1) .big 8)
      (.cast .high 8 (.var loaded)))

/-- Registers and the memory are bound, and nothing is checked. -/
def unchecked : World := .start { checking.env .orig with sideRules := [] } (Env.start Arch.arm [])

theorem guessed_typed : guessed.HasType (.bv 8) := by
  have hmem : (Exp.var memory).HasType (.mem 32 8) := .var rfl
  have hreg : (Exp.var register1).HasType (.bv 32) := .var rfl
  have hx : (Exp.var loaded).HasType (.bv 16) := .var rfl
  have hstored : (Exp.store (.var memory) (.var register1) (.bin .shl (.var loaded) (.lit 3#32))
      .little 16).HasType (.mem 32 8) :=
    .store hmem hreg (.shift rfl hx (.lit (by decide))) rfl (by decide)
  refine .letIn (s := .bv 16) rfl (.unknown rfl) (.ite hx ?_ ?_)
  · exact .load hstored hreg (by decide) (by decide)
  · exact .cut (.inl rfl) (by decide) (by decide) hx

theorem guessed_bound : Bound (unchecked.env .orig).vars guessed := by
  intro v hv
  have hfree : v = memory ∨ v = register1 := by
    revert v
    decide
  rcases hfree with rfl | rfl
  · exact ⟨_, rfl, rfl⟩
  · exact ⟨_, rfl, rfl⟩

theorem translate_typed_guessed :
    guessed.HasType (.bv 8) ∧ Bound (unchecked.env .orig).vars guessed ∧
      (∃ (t : Term (.bv 8)) (w' : World), translate .orig guessed unchecked = .ok ⟨_, t⟩ w' ∧
        Stands (unchecked.env .orig).vars guessed ⟨_, t⟩) ∧
      ∃ (t : Term (.bv 8)) (w' : World),
        translateChecked .orig guessed unchecked = .ok (⟨_, t⟩, []) w' ∧
          Stands (unchecked.env .orig).vars guessed ⟨_, t⟩ := by
  obtain ⟨hplain, hchecked⟩ := translate_typed guessed_typed
    (guessed_bound : Bound (unchecked.env .orig).vars guessed)
  exact ⟨guessed_typed, guessed_bound, hplain, hchecked rfl⟩

end Precond.Walk

namespace Precond

open IR

/-- Each binding gives its variable a value of the variable's own type. -/
def IR.Exp.Fitting (e : Exp) : Prop :=
  ∀ v value body, .letIn v value body ∈ e.walk → ∀ s, value.HasType s → v.type.sort = .ok s

/-- Bindings fit, and the variables from outside stand for terms of their sorts. -/
structure Suited (V : Table Var SomeTerm) (e : Exp) : Prop where
  fitting : e.Fitting
  bound : Bound V e

theorem Suited.part {V : Table Var SomeTerm} {e e' : Exp} (h : Suited V e) (he : e' ∈ e.children)
    (hk : e.kind ≠ .letIn) : Suited V e' := by
  refine ⟨fun v value body hmem => h.fitting v value body (Walk.walk_child he _ hmem), ?_⟩
  refine h.bound.part fun v hv => ?_
  cases e <;> simp only [Exp.children, List.mem_cons, List.not_mem_nil, or_false] at he
  case letIn => exact absurd rfl hk
  all_goals
    simp only [Exp.freeVars, List.mem_append]
    grind

theorem Suited.value {V : Table Var SomeTerm} {v : Var} {value body : Exp}
    (h : Suited V (.letIn v value body)) : Suited V value where
  fitting u x b hmem := h.fitting u x b (by simp [Exp.walk, hmem])
  bound := h.bound.part fun u hu => by simp [Exp.freeVars, hu]

/-- The body is looked at where the variable stands for the value, which is of the variable's type. -/
theorem Suited.body {V : Table Var SomeTerm} {v : Var} {value body : Exp} {t : SomeTerm}
    (h : Suited V (.letIn v value body)) (ht : value.HasType t.1) : Suited (V.put v t) body where
  fitting u x b hmem := h.fitting u x b (by simp [Exp.walk, hmem])
  bound := h.bound.body (h.fitting v value body (by simp [Exp.walk]) _ ht) t.2

/-! ### Operations -/

namespace Term

variable {e l r c mem addr value : Exp} {x y z t : SomeTerm}

theorem binary_typed {op : BinOp} (hl : l.HasType x.1) (hr : r.HasType y.1)
    (h : binary op x y = .ok t) : (Exp.bin op l r).HasType t.1 := by
  obtain ⟨⟨w, x⟩, hx, h⟩ := bind_eq_ok h
  obtain ⟨⟨v, y⟩, hy, h⟩ := bind_eq_ok h
  rw [SomeTerm.word_eq_ok hx] at hl
  rw [SomeTerm.word_eq_ok hy] at hr
  rcases binRule_kind op with ⟨hshift, f, hf⟩ | ⟨hcompare, f, hf⟩ | ⟨hshift, hcompare, f, hf⟩
  all_goals simp only [hf] at h
  · obtain ⟨amount, -, h⟩ := bind_eq_ok h
    cases h
    exact .shift hshift hl hr
  · split at h
    · rename_i hv
      cases hv
      cases h
      exact .compare hcompare hl hr
    · cases h
  · split at h
    · rename_i hv
      cases hv
      cases h
      exact .arith hshift hcompare hl hr
    · cases h

theorem unary_typed {op : UnOp} (he : e.HasType x.1) (h : unary op x = .ok t) :
    (Exp.un op e).HasType t.1 := by
  obtain ⟨⟨w, x⟩, hx, h⟩ := bind_eq_ok h
  rw [SomeTerm.word_eq_ok hx] at he
  cases op <;> cases h <;> exact .un he

theorem extract_ok {w : Nat} {hi lo : Int} {x : Term (.bv w)} (h : extract hi lo x = .ok t) :
    (0 ≤ lo ∧ lo ≤ hi ∧ hi < w) ∧ t.1 = .bv (hi - lo + 1).toNat := by
  unfold extract at h
  split at h
  · cases h
    rename_i hr
    refine ⟨hr, congrArg TSort.bv ?_⟩
    omega
  · cases h

theorem castTo_typed {kind : CastKind} {width : Int} (he : e.HasType x.1)
    (h : castTo kind width x = .ok t) : (Exp.cast kind width e).HasType t.1 := by
  obtain ⟨⟨w, x⟩, hx, h⟩ := bind_eq_ok h
  rw [SomeTerm.word_eq_ok hx] at he
  have hw : 0 < w := he.positive
  have hcut {hi lo : Int} (h : extract hi lo x = .ok t) (hwidth : hi - lo + 1 = width) :
      (0 ≤ lo ∧ lo ≤ hi ∧ hi < w) ∧ t.1 = .bv width.toNat := hwidth ▸ extract_ok h
  -- a wider or an equal word keeps its number
  have hresize {n : Nat} (hn : n = width.toNat) (hkind : kind = .unsigned ∨ kind = .signed)
      (h0 : 0 < width) : (Exp.cast kind width e).HasType (.bv n) := hn ▸ .resize hkind h0 he
  cases kind with
  | unsigned | signed =>
    dsimp only at h
    split at h
    · cases h
      exact hresize (by omega) (by simp) (by omega)
    split at h
    · obtain ⟨hr, ht⟩ := hcut h (by omega)
      exact ht ▸ .resize (by simp) (by omega) he
    · cases h
      exact hresize (by omega) (by simp) (by omega)
  | high | low =>
    dsimp only at h
    split at h
    · cases h
    · have hle : width ≤ w := not_lt.mp ‹_›
      obtain ⟨hr, ht⟩ := hcut h (by omega)
      exact ht ▸ .cut (by simp) (by omega) hle he

theorem extractBits_typed {hi lo : Int} (he : e.HasType x.1) (h : extractBits hi lo x = .ok t) :
    (Exp.extract hi lo e).HasType t.1 := by
  obtain ⟨⟨w, x⟩, hx, h⟩ := bind_eq_ok h
  rw [SomeTerm.word_eq_ok hx] at he
  dsimp only at h
  split at h
  · obtain ⟨⟨h0, hlo, hhi⟩, ht⟩ := extract_ok h
    exact ht ▸ .extract h0 hlo hhi he
  · cases h

theorem concatWords_typed (hl : l.HasType x.1) (hr : r.HasType y.1) (h : concatWords x y = .ok t) :
    (Exp.concat l r).HasType t.1 := by
  obtain ⟨⟨w, x⟩, hx, h⟩ := bind_eq_ok h
  obtain ⟨⟨v, y⟩, hy, h⟩ := bind_eq_ok h
  rw [SomeTerm.word_eq_ok hx] at hl
  rw [SomeTerm.word_eq_ok hy] at hr
  cases h
  exact .concat hl hr

theorem choose_typed (hc : c.HasType x.1) (hl : l.HasType y.1) (hr : r.HasType z.1)
    (h : choose x y z = .ok t) : (Exp.ite c l r).HasType t.1 := by
  unfold choose at h
  split at h
  · rename_i hs
    obtain ⟨p, hp, h⟩ := bind_eq_ok h
    obtain ⟨⟨w, x⟩, hx, -⟩ := bind_eq_ok hp
    rw [SomeTerm.word_eq_ok hx] at hc
    cases h
    exact .ite hc hl (hs ▸ hr)
  · cases h

/-- Memory is accessed by whole cells. -/
theorem cells_of_cellCount {c : Nat} {size n : Int} (h : cellCount c size = .ok n) :
    (c : Int) ∣ size ∧ (n.toNat ≠ 0 → 0 < size) := by
  obtain ⟨-, hsize⟩ := cellCount_ok h
  refine ⟨⟨n, hsize.symm⟩, fun hn => ?_⟩
  have hpos : 0 < n := by omega
  have hc : c ≠ 0 := by
    rintro rfl
    unfold cellCount at h
    split at h
    · cases h
      simp at hpos
    · cases h
  have hc' : (0 : Int) < c := by omega
  exact hsize ▸ Int.mul_pos hc' hpos

theorem load_typed {size : Int} {endian : Endian} (hm : mem.HasType x.1) (ha : addr.HasType y.1)
    (h : load x y size endian = .ok t) : (Exp.load mem addr endian size).HasType t.1 := by
  have hload := h
  obtain ⟨⟨a, c, m⟩, hx, h⟩ := bind_eq_ok h
  obtain ⟨n, hn, h⟩ := bind_eq_ok h
  obtain ⟨_, -, h⟩ := bind_eq_ok h
  obtain ⟨address, hy, h⟩ := bind_eq_ok h
  rw [SomeTerm.memory_eq_ok hx] at hm hload
  rw [SomeTerm.as_eq_ok hy] at ha hload
  obtain ⟨hdvd, hpos⟩ := cells_of_cellCount hn
  have hcells : n.toNat ≠ 0 := by
    intro h0
    rw [h0] at h
    cases endian <;> cases h
  obtain ⟨u, hu⟩ := load_sorted m address endian (hpos hcells) hdvd
  cases hload.symm.trans hu
  exact .load hm ha (hpos hcells) hdvd

theorem storeWord_typed {size : Int} {endian : Endian} (hm : mem.HasType x.1)
    (ha : addr.HasType y.1) (hv : value.HasType z.1) (h : storeWord x y z size endian = .ok t) :
    (Exp.store mem addr value endian size).HasType t.1 := by
  obtain ⟨⟨a, c, m⟩, hx, h⟩ := bind_eq_ok h
  obtain ⟨n, hn, h⟩ := bind_eq_ok h
  obtain ⟨_, -, h⟩ := bind_eq_ok h
  obtain ⟨⟨w, word⟩, hz, h⟩ := bind_eq_ok h
  dsimp only at h
  split at h
  · cases h
  · obtain ⟨address, hy, h⟩ := bind_eq_ok h
    obtain ⟨cells, -, h⟩ := bind_eq_ok h
    rw [SomeTerm.memory_eq_ok hx] at hm
    rw [SomeTerm.as_eq_ok hy] at ha
    rw [SomeTerm.word_eq_ok hz] at hv
    cases h
    exact .store hm ha hv (not_not.mp ‹_›) (cells_of_cellCount hn).1

end Term

/-! ### Translations -/

theorem IR.Exp.HasType.fitting {e : Exp} {s : TSort} (h : e.HasType s) : e.Fitting := by
  intro u x b hmem s' hx
  induction h with
    simp only [walk, List.mem_cons, List.mem_append, List.not_mem_nil, or_false, reduceCtorEq,
      false_or] at hmem
  | load _ _ _ _ ihl ihr | arith _ _ _ _ ihl ihr | compare _ _ _ ihl ihr | shift _ _ _ ihl ihr
  | concat _ _ ihl ihr => exact hmem.elim ihl ihr
  | store _ _ _ _ _ iha ihb ihc | ite _ _ _ iha ihb ihc =>
    exact hmem.elim (·.elim iha ihb) ihc
  | un _ ih | resize _ _ _ ih | cut _ _ _ _ ih | extract _ _ _ _ ih => exact ih hmem
  | letIn hs hvalue _ ihv ihb =>
    rcases hmem with heq | hmem
    · cases heq
      exact hvalue.unique hx ▸ hs
    · exact hmem.elim ihv ihb

namespace Walk

variable {side : Side} {E : Setting} {w w' : World} {e : Exp} {s : TSort}

/-- The induction is on the expression, with the bindings in force at each part. -/
theorem translateWith_typed {watch : Exp → Walk (List Hook)} (hw : ∀ e, Leaves side (watch e))
    (h : Suited E.1 e) : Results side E (fun r => e.HasType r.1.1) (translateWith side watch e) := by
  have hleaves (e : Exp) : Leaves side (translateWith side watch e) := .translateWith hw e
  induction e generalizing E with
  | var u =>
    refine .after (hw _) fun hs w r w' hE hr => ?_
    obtain ⟨t', ht', hsort⟩ := h.bound u (by simp [Exp.freeVars])
    rw [← show (w.env side).vars = E.1 from congrArg Prod.fst hE] at ht'
    obtain ⟨t, w₁, ht, h₁⟩ := bind_ok hr
    obtain ⟨hlookup, rfl⟩ := getVar_ok ht
    cases h₁
    cases hlookup.symm.trans ht'
    exact .var hsort
  | @lit width x =>
    refine .after (hw _) fun hs => ?_
    split
    · intro w r w' _ hr
      cases hr
    · exact .pure (.lit (Nat.pos_of_ne_zero ‹_›))
  | bin op l r ihl ihr =>
    refine .after (hw _) fun _ => ?_
    refine .bind (hleaves _) (ihl (h.part (by simp [Exp.children]) (fun h => by cases h))) fun x hx => ?_
    refine .bind (hleaves _) (ihr (h.part (by simp [Exp.children]) (fun h => by cases h))) fun y hy => ?_
    exact .lift fun t ht => .pure (Term.binary_typed hx hy ht)
  | un op a ih =>
    refine .after (hw _) fun _ => ?_
    refine .bind (hleaves _) (ih (h.part (by simp [Exp.children]) (fun h => by cases h))) fun x hx => ?_
    exact .lift fun t ht => .pure (Term.unary_typed hx ht)
  | cast kind width a ih =>
    refine .after (hw _) fun _ => ?_
    refine .bind (hleaves _) (ih (h.part (by simp [Exp.children]) (fun h => by cases h))) fun x hx => ?_
    exact .lift fun t ht => .pure (Term.castTo_typed hx ht)
  | extract hi lo a ih =>
    refine .after (hw _) fun _ => ?_
    refine .bind (hleaves _) (ih (h.part (by simp [Exp.children]) (fun h => by cases h))) fun x hx => ?_
    exact .lift fun t ht => .pure (Term.extractBits_typed hx ht)
  | load mem addr endian size ihm iha =>
    refine .after (hw _) fun _ => ?_
    refine .bind (hleaves _) (ihm (h.part (by simp [Exp.children]) (fun h => by cases h))) fun m hm => ?_
    refine .bind (hleaves _) (iha (h.part (by simp [Exp.children]) (fun h => by cases h))) fun a ha => ?_
    exact .lift fun t ht => .pure (Term.load_typed hm ha ht)
  | store mem addr value endian size ihm iha ihv =>
    refine .after (hw _) fun _ => ?_
    refine .bind (hleaves _) (ihm (h.part (by simp [Exp.children]) (fun h => by cases h))) fun m hm => ?_
    refine .bind (hleaves _) (iha (h.part (by simp [Exp.children]) (fun h => by cases h))) fun a ha => ?_
    refine .bind (hleaves _) (ihv (h.part (by simp [Exp.children]) (fun h => by cases h))) fun v hv => ?_
    exact .lift fun t ht => .pure (Term.storeWord_typed hm ha hv ht)
  | ite cond yes no ihc ihy ihn =>
    refine .after (hw _) fun _ => ?_
    refine .bind (hleaves _) (ihc (h.part (by simp [Exp.children]) (fun h => by cases h))) fun c hc => ?_
    refine .bind (hleaves _) (ihy (h.part (by simp [Exp.children]) (fun h => by cases h))) fun y hy => ?_
    refine .bind (hleaves _) (ihn (h.part (by simp [Exp.children]) (fun h => by cases h))) fun n hn => ?_
    exact .lift fun t ht => .pure (Term.choose_typed hc hy hn ht)
  | concat l r ihl ihr =>
    refine .after (hw _) fun _ => ?_
    refine .bind (hleaves _) (ihl (h.part (by simp [Exp.children]) (fun h => by cases h))) fun x hx => ?_
    refine .after (.ofExcept _) fun _ => ?_
    refine .bind (hleaves _) (ihr (h.part (by simp [Exp.children]) (fun h => by cases h))) fun y hy => ?_
    exact .lift fun t ht => .pure (Term.concatWords_typed hx hy ht)
  | letIn u value body ihv ihb =>
    refine .after (hw _) fun _ => ?_
    refine .bind (hleaves _) (ihv h.value) fun x hx => ?_
    refine .bind ((hleaves _).binding u x.1) (.binding (ihb (h.body hx))) fun y hy => ?_
    have hs := h.fitting u value body (by simp [Exp.walk]) _ hx
    exact .pure (.letIn hs hx hy)
  | unknown text type =>
    refine .after (hw _) fun hs w r w' _ hr => ?_
    obtain ⟨t, w₁, ht, h₁⟩ := bind_ok hr
    obtain ⟨-, n, s, hs, rfl⟩ := fresh_ok ht
    cases h₁
    exact .unknown hs

/-- An expression whose variables are bound to terms of their sorts is translated to a term of its type,
with whatever conditions, just if its bindings fit; and it follows the typing rules just if they do and
it is translated. -/
theorem translate_typed_iff (hb : Bound (w.env side).vars e) :
    (∀ t hs w', translateChecked side e w = .ok (t, hs) w' → (e.HasType t.1 ↔ e.Fitting)) ∧
      (e.HasType s ↔ e.Fitting ∧ ∃ (t : Term s) (w' : World), translate side e w = .ok ⟨s, t⟩ w') := by
  have htyped {t : SomeTerm} {hs : List Hook} {v v' : World} (rules : List SideRule)
      (hfit : e.Fitting) (hv : (v.env side).setting = (w.env side).setting)
      (h : translateWith side (sideConditions side rules) e v = .ok (t, hs) v') : e.HasType t.1 :=
    translateWith_typed (Leaves.sideConditions (.inl rfl)) ⟨hfit, hb⟩ v (t, hs) v' hv h
  constructor
  · intro t hs w' h
    refine ⟨fun ht => ht.fitting, fun hfit => ?_⟩
    exact htyped _ hfit (counted_setting w _) h
  · constructor
    · intro he
      obtain ⟨t, w', h, -⟩ := Supplies.translateWith he hb w rfl
      exact ⟨he.fitting, t, w', bind_of_ok h⟩
    · rintro ⟨hfit, t, w', h⟩
      obtain ⟨⟨_, hs⟩, w₁, h₁, h₂⟩ := bind_ok h
      cases h₂
      exact htyped [] hfit rfl h₁

/-! A variable of 32 bits is bound to a word of eight, and two of it make sixteen. -/

def narrow : Var := ⟨"t", .word 32⟩

def mistaken : Exp := .letIn narrow (.lit 1#8) (.concat (.var narrow) (.var narrow))

theorem translate_typed_iff_mistaken :
    Bound (unchecked.env .orig).vars mistaken ∧ ¬ mistaken.Fitting ∧
      (∃ t hs w', translateChecked .orig mistaken unchecked = .ok (t, hs) w' ∧ t.1 = .bv 16 ∧
        ¬ mistaken.HasType t.1) ∧
      ¬ mistaken.HasType (.bv 16) := by
  have hb : Bound (unchecked.env .orig).vars mistaken := by
    have hclosed : mistaken.freeVars = [] := by decide
    intro v hv
    rw [hclosed] at hv
    cases hv
  have hunfit : ¬ mistaken.Fitting := by
    intro hfit
    have hbinds : (.bv 32 : TSort) = .bv 8 := Except.ok.inj <|
      hfit narrow (.lit 1#8) (.concat (.var narrow) (.var narrow)) (mem_walk_self _) (.bv 8)
        (.lit (by decide))
    cases hbinds
  obtain ⟨hchecked, htype⟩ := translate_typed_iff (s := .bv 16) hb
  obtain ⟨t, hs, w', h, ht⟩ : ∃ t hs w',
      translateChecked .orig mistaken unchecked = .ok (t, hs) w' ∧ t.1 = .bv 16 :=
    ⟨_, _, _, rfl, rfl⟩
  exact ⟨hb, hunfit, ⟨t, hs, w', h, ht, fun hs' => hunfit ((hchecked t hs w' h).mp hs')⟩,
    fun hs' => hunfit (htype.mp hs').1⟩

end Walk

end Precond
