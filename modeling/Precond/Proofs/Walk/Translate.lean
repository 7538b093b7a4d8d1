import Precond.Proofs.Env.Names
import Precond.Proofs.Term.Access
import Precond.Walk.Translate

/-! Translation against the semantics of expressions. A translation only draws numbers for unknown
values, and the value of its term is one that the expression yields in the store of the model. What
a watcher tells of an expression is told of all its parts (`Walk.translateWith_tells`). -/

namespace Precond

open IR

/-- Between the worlds only numbers for names have been drawn, and translations been counted. -/
structure World.Drawn (side : Side) (w w' : World) : Prop where
  nodes : w'.nodes = w.nodes
  other : side' ≠ side → w'.env side' = w.env side'
  env : ∃ names : NameSupply, w'.env side = { w.env side with names } ∧
    names.space = (w.env side).names.space ∧ (w.env side).names.next ≤ names.next

namespace World.Drawn

variable {side : Side} {w w₁ w₂ : World}

theorem refl (side : Side) (w : World) : w.Drawn side w :=
  ⟨rfl, fun _ => rfl, _, rfl, rfl, Nat.le_refl _⟩

theorem trans (h₁ : w.Drawn side w₁) (h₂ : w₁.Drawn side w₂) : w.Drawn side w₂ := by
  obtain ⟨names₁, he₁, hs₁, hn₁⟩ := h₁.env
  obtain ⟨names₂, he₂, hs₂, hn₂⟩ := h₂.env
  rw [he₁] at he₂ hs₂ hn₂
  exact ⟨h₂.nodes.trans h₁.nodes, fun hs => (h₂.other hs).trans (h₁.other hs), names₂, he₂,
    hs₂.trans hs₁, Nat.le_trans hn₁ hn₂⟩

theorem vars (h : w.Drawn side w₁) : (w₁.env side).vars = (w.env side).vars := by
  obtain ⟨names, he, -⟩ := h.env
  rw [he]

/-- The count of translations does not matter. -/
theorem counted {n : Nat} (h : Drawn side { w with translations := n } w₁) : w.Drawn side w₁ := by
  have henv (s : Side) : World.env { w with translations := n } s = w.env s := by cases s <;> rfl
  obtain ⟨names, he, hrest⟩ := h.env
  rw [henv] at he hrest
  exact ⟨h.nodes, fun hs => (h.other hs).trans (henv _), names, he, hrest⟩

end World.Drawn

namespace Walk

/-- The watcher that gives no conditions. -/
abbrev silent : Exp → Walk (List Hook) := fun _ => return []

/-- The term stands for a value of the expression in the store of every model. -/
def Stands (T : Table Var SomeTerm) (e : Exp) (t : SomeTerm) : Prop :=
  ∀ V, Table.Grows T V → ∀ m : Model, e.Yields (m.store V) (t.value m)

variable {side : Side} {w w' : World}

theorem getVar_ok {v : Var} {t : SomeTerm} (h : on side (Env.getVar v) w = .ok t w') :
    (w.env side).vars.lookup v = some t ∧ w' = w := by
  obtain ⟨e, he, rfl⟩ := on_ok h
  obtain ⟨hv, rfl⟩ := Env.getVar_ok he
  exact ⟨hv, by cases side <;> rfl⟩

theorem fresh_ok {name : String} {type : Ty} {t : SomeTerm}
    (h : on side (Env.fresh name type) w = .ok t w') :
    w.Drawn side w' ∧ ∃ n s, type.sort = .ok s ∧ t = ⟨s, .const n s⟩ := by
  obtain ⟨e, he, rfl⟩ := on_ok h
  obtain ⟨rfl, hc⟩ := Env.fresh_ok he
  exact ⟨⟨World.nodes_setEnv .., fun hs => World.env_setEnv_of_ne _ _ _ hs, _,
    World.env_setEnv .., rfl, Nat.le_succ _⟩, hc⟩

theorem restoreVar_put (v : Var) (x : SomeTerm) (e : Env) (names : NameSupply) :
    Env.restoreVar v (e.vars.lookup v) { e with vars := Table.put e.vars v x, names } =
      { e with names } := by
  cases hv : e.vars.lookup v with
  | some t =>
    rw [Env.restoreVar]
    dsimp only
    rw [Table.put_lookup hv]
  | none =>
    rw [Env.restoreVar]
    dsimp only
    rw [Table.without_put hv]

/-- Binding a variable is undone afterwards. -/
theorem binding_ok {v : Var} {x : SomeTerm} {act : Walk α} {a : α}
    (h : binding side v x act w = .ok a w')
    (hact : ∀ w₁ w₂, (w₁.env side).vars = Table.put (w.env side).vars v x →
      (∃ vars, w₁.env side = { w.env side with vars }) → act w₁ = .ok a w₂ → w₁.Drawn side w₂) :
    w.Drawn side w' ∧ ∃ w₁ w₂, act w₁ = .ok a w₂ ∧
      (w₁.env side).vars = Table.put (w.env side).vars v x ∧
      ∃ vars, w₁.env side = { w.env side with vars } := by
  obtain ⟨e, w₀, he, h₁⟩ := bind_ok h
  obtain ⟨rfl, rfl⟩ := env_ok he
  obtain ⟨u, w₁, hu, h₂⟩ := bind_ok h₁
  obtain ⟨e₁, he₁, rfl⟩ := on_ok hu
  cases he₁
  obtain ⟨w₂, hw₂, rfl⟩ := restoring_ok h₂
  have hd := hact _ _ (by rw [World.env_setEnv]) ⟨_, World.env_setEnv ..⟩ hw₂
  obtain ⟨names, he₂, hs, hn⟩ := hd.env
  rw [World.env_setEnv] at he₂ hs hn
  refine ⟨⟨?_, fun hside => ?_, names, ?_, hs, hn⟩, _, _, hw₂, ?_, _, World.env_setEnv ..⟩
  · rw [World.nodes_setEnv, hd.nodes, World.nodes_setEnv]
  · rw [World.env_setEnv_of_ne _ _ _ hside, hd.other hside, World.env_setEnv_of_ne _ _ _ hside]
  · rw [World.env_setEnv, he₂]
    exact restoreVar_put v x _ names
  · rw [World.env_setEnv]

/-! ### Watchers -/

/-- The conditions are those that `Q` gives, with their duties and truth values, in the store of every
model. All of them are about the state before. -/
structure Tells (Q : Store → Duty → Bool → Prop) (T : Table Var SomeTerm) (hs : List Hook) : Prop where
  before : ∀ h ∈ hs, h.placement = .before
  tells (V : Table Var SomeTerm) (m : Model) (d : Duty) (b : Bool) : Table.Grows T V →
    ((∃ h ∈ hs, h.duty = d ∧ h.term.holds m = b) ↔ Q (m.store V) d b)

/-- In environments of a class that drawing names and binding variables does not leave, the watcher
only draws numbers, and tells what `P` gives for an expression that yields one value at most; a mute
one tells nothing of any expression. -/
structure Watches (side : Side) (I : Env → Prop) (mute : Prop) (watch : Exp → Walk (List Hook))
    (P : Store → Exp → Duty → Bool → Prop) : Prop where
  names {e : Env} (names : NameSupply) : I e → I { e with names }
  vars {e : Env} (vars : Table Var SomeTerm) : I e → I { e with vars }
  nothing : mute → ¬ P σ e d b
  ok {e : Exp} {hs : List Hook} {w w' : World} : e.known ∨ mute →
    I (w.env side) → watch e w = .ok hs w' → w.Drawn side w' ∧ Tells (P · e) (w.env side).vars hs

/-- A watcher of environments of the class is in a world with these terms of variables. -/
structure Watched (side : Side) (I : Env → Prop) (T : Table Var SomeTerm) (w : World) : Prop where
  allows : I (w.env side)
  vars : (w.env side).vars = T

/-- What is told of an expression and its parts. -/
def Throughout (P : Store → Exp → Duty → Bool → Prop) (e : Exp) (σ : Store) (d : Duty) (b : Bool) :
    Prop := Exp.Somewhere (fun σ e => P σ e d b) σ e

namespace Tells

variable {Q Q₁ Q₂ : Store → Duty → Bool → Prop} {T : Table Var SomeTerm} {hs hs₁ hs₂ : List Hook}

theorem nil (T : Table Var SomeTerm) : Tells (fun _ _ _ => False) T [] :=
  ⟨nofun, fun _ _ _ _ _ => ⟨fun ⟨_, h, _⟩ => (nomatch h), False.elim⟩⟩

theorem eq_nil (h : Tells (fun _ _ _ => False) T hs) : hs = [] :=
  List.eq_nil_iff_forall_not_mem.mpr fun k hk =>
    (h.tells T ⟨fun _ _ => default, fun _ dom _ => Fn.const dom default⟩ k.duty _ (.refl _)).mp
      ⟨k, hk, rfl, rfl⟩

theorem congr (h : Tells Q₁ T hs) (hQ : ∀ σ d b, Q₁ σ d b ↔ Q₂ σ d b) : Tells Q₂ T hs :=
  ⟨h.before, fun V m d b hV => (h.tells V m d b hV).trans (hQ ..)⟩

theorem append (h₁ : Tells Q₁ T hs₁) (h₂ : Tells Q₂ T hs₂) :
    Tells (fun σ d b => Q₁ σ d b ∨ Q₂ σ d b) T (hs₁ ++ hs₂) := by
  refine ⟨fun k hk => (List.mem_append.mp hk).elim (h₁.before k) (h₂.before k), fun V m d b hV => ?_⟩
  rw [← h₁.tells V m d b hV, ← h₂.tells V m d b hV]
  simp only [List.mem_append, or_and_right, exists_or]

/-- The parts of an expression without a binding of its own are told of in the same store. -/
theorem whole {P : Store → Exp → Duty → Bool → Prop} {e : Exp} (h : Tells Q T hs)
    (he : e.kind ≠ .letIn)
    (hQ : ∀ σ d b, Q σ d b ↔ P σ e d b ∨ ∃ c ∈ e.children, Throughout P c σ d b) :
    Tells (Throughout P e) T hs :=
  h.congr fun σ d b =>
    (hQ σ d b).trans (Exp.somewhere_iff (P := fun σ e => P σ e d b) he).symm

/-- What is told where a variable stands for the value of a term. -/
theorem bound {v : Var} {x : SomeTerm} {e : Exp} (h : Tells Q (T.put v x) hs) (hx : Stands T e x)
    (he : (∀ σ y z, e.Yields σ y → e.Yields σ z → y = z) ∨ ∀ σ d b, ¬ Q σ d b) :
    Tells (fun σ d b => ∃ y, e.Yields σ y ∧ Q (Function.update σ v y) d b) T hs := by
  refine ⟨h.before, fun V m d b hV => ?_⟩
  rw [h.tells (V.put v x) m d b (hV.put v x), Model.store_put]
  constructor
  · exact fun hQ => ⟨x.value m, hx V hV m, hQ⟩
  · rintro ⟨y, hy, hQ⟩
    rcases he with hunique | hnone
    · rwa [hunique _ _ _ hy (hx V hV m)] at hQ
    · exact absurd hQ (hnone _ _ _)

end Tells

theorem Watches.drawn {I : Env → Prop} {mute : Prop} {watch : Exp → Walk (List Hook)}
    {P : Store → Exp → Duty → Bool → Prop} (h : Watches side I mute watch P) {T : Table Var SomeTerm}
    (hw : Watched side I T w) (hd : w.Drawn side w') : Watched side I T w' := by
  refine ⟨?_, hd.vars.trans hw.vars⟩
  obtain ⟨names, he, -⟩ := hd.env
  rw [he]
  exact h.names names hw.allows

theorem watches_silent : Watches side (fun _ => True) True silent fun _ _ _ _ => False := by
  refine ⟨fun _ h => h, fun _ h => h, fun _ => id, fun _ _ h => ?_⟩
  cases h
  exact ⟨.refl .., .nil _⟩

/-- A translation only draws numbers for unknown values, its term stands for a value of the
expression, and the conditions are what the watcher tells of the expression and its parts. -/
theorem translateWith_tells {I : Env → Prop} {mute : Prop} {watch : Exp → Walk (List Hook)}
    {P : Store → Exp → Duty → Bool → Prop} (hwatch : Watches side I mute watch P)
    {T : Table Var SomeTerm} (e : Exp) (hP : e.known ∨ mute) {t : SomeTerm} {hs : List Hook}
    (hT : Watched side I T w) (h : translateWith side watch e w = .ok (t, hs) w') :
    w.Drawn side w' ∧ Stands T e t ∧ Tells (Throughout P e) T hs := by
  induction e generalizing T t hs w w' with
  | var v =>
    obtain ⟨hs₀, w₀, h₀, h₁⟩ := bind_ok h
    obtain ⟨d₀, k₀⟩ := hwatch.ok hP hT.allows h₀
    have hT₀ := hwatch.drawn hT d₀
    obtain ⟨t, w₁, ht, h₂⟩ := bind_ok h₁
    obtain ⟨hv, rfl⟩ := getVar_ok ht
    cases h₂
    rw [hT.vars] at k₀
    rw [hT₀.vars] at hv
    refine ⟨d₀, fun V hV m => ?_, k₀.whole (fun h => by cases h) fun _ _ _ => by simp [Exp.children]⟩
    rw [← Model.store_of_lookup (hV _ _ hv)]
    exact .var
  | @lit width x =>
    obtain ⟨hs₀, w₀, h₀, h₁⟩ := bind_ok h
    obtain ⟨d₀, k₀⟩ := hwatch.ok hP hT.allows h₀
    have hT₀ := hwatch.drawn hT d₀
    by_cases hw : width = 0
    · rw [if_pos hw] at h₁
      cases h₁
    · rw [if_neg hw] at h₁
      cases h₁
      rw [hT.vars] at k₀
      exact ⟨d₀, fun V hV m => .lit hw, k₀.whole (fun h => by cases h) fun _ _ _ => by simp [Exp.children]⟩
  | load mem addr endian size ihm iha =>
    obtain ⟨hs₀, w₀, h₀, h₁⟩ := bind_ok h
    obtain ⟨d₀, k₀⟩ := hwatch.ok hP hT.allows h₀
    have hT₀ := hwatch.drawn hT d₀
    obtain ⟨⟨x, hx⟩, w₁, hm, h₂⟩ := bind_ok h₁
    obtain ⟨⟨y, hy⟩, w₂, ha, h₃⟩ := bind_ok h₂
    obtain ⟨z, w₃, hz, h₄⟩ := bind_ok h₃
    obtain ⟨hz', rfl⟩ := ofExcept_ok hz
    cases h₄
    simp only [Exp.known, Bool.and_eq_true] at hP
    rw [hT.vars] at k₀
    obtain ⟨dm, sm, km⟩ := ihm (hP.imp_left (·.1)) hT₀ hm
    obtain ⟨da, sa, ka⟩ := iha (hP.imp_left (·.2)) (hwatch.drawn hT₀ dm) ha
    exact ⟨(d₀.trans dm).trans da,
      fun V hV m => .load (sm V hV m) (sa V hV m) (Term.load_value hz' m),
      ((k₀.append km).append ka).whole (fun h => by cases h) fun _ _ _ => by simp [Exp.children, or_assoc]⟩
  | store mem addr value endian size ihm iha ihv =>
    obtain ⟨hs₀, w₀, h₀, h₁⟩ := bind_ok h
    obtain ⟨d₀, k₀⟩ := hwatch.ok hP hT.allows h₀
    have hT₀ := hwatch.drawn hT d₀
    obtain ⟨⟨x, hx⟩, w₁, hm, h₂⟩ := bind_ok h₁
    obtain ⟨⟨y, hy⟩, w₂, ha, h₃⟩ := bind_ok h₂
    obtain ⟨⟨v, hv⟩, w₃, hvalue, h₄⟩ := bind_ok h₃
    obtain ⟨z, w₄, hz, h₅⟩ := bind_ok h₄
    obtain ⟨hz', rfl⟩ := ofExcept_ok hz
    cases h₅
    simp only [Exp.known, Bool.and_eq_true] at hP
    rw [hT.vars] at k₀
    obtain ⟨dm, sm, km⟩ := ihm (hP.imp_left (·.1.1)) hT₀ hm
    obtain ⟨da, sa, ka⟩ := iha (hP.imp_left (·.1.2)) (hwatch.drawn hT₀ dm) ha
    obtain ⟨dv, sv, kv⟩ := ihv (hP.imp_left (·.2))
      (hwatch.drawn (hwatch.drawn hT₀ dm) da) hvalue
    exact ⟨((d₀.trans dm).trans da).trans dv,
      fun V hV m => .store (sm V hV m) (sa V hV m) (sv V hV m) (Term.storeWord_value hz' m),
      (((k₀.append km).append ka).append kv).whole (fun h => by cases h)
        fun _ _ _ => by simp [Exp.children, or_assoc]⟩
  | bin op l r ihl ihr =>
    obtain ⟨hs₀, w₀, h₀, h₁⟩ := bind_ok h
    obtain ⟨d₀, k₀⟩ := hwatch.ok hP hT.allows h₀
    have hT₀ := hwatch.drawn hT d₀
    obtain ⟨⟨x, hx⟩, w₁, hl, h₂⟩ := bind_ok h₁
    obtain ⟨⟨y, hy⟩, w₂, hr, h₃⟩ := bind_ok h₂
    obtain ⟨z, w₃, hz, h₄⟩ := bind_ok h₃
    obtain ⟨hz', rfl⟩ := ofExcept_ok hz
    cases h₄
    simp only [Exp.known, Bool.and_eq_true] at hP
    rw [hT.vars] at k₀
    obtain ⟨dl, sl, kl⟩ := ihl (hP.imp_left (·.1)) hT₀ hl
    obtain ⟨dr, sr, kr⟩ := ihr (hP.imp_left (·.2)) (hwatch.drawn hT₀ dl) hr
    exact ⟨(d₀.trans dl).trans dr,
      fun V hV m => .bin (sl V hV m) (sr V hV m) (Term.binary_value hz' m),
      ((k₀.append kl).append kr).whole (fun h => by cases h) fun _ _ _ => by simp [Exp.children, or_assoc]⟩
  | un op a ih =>
    obtain ⟨hs₀, w₀, h₀, h₁⟩ := bind_ok h
    obtain ⟨d₀, k₀⟩ := hwatch.ok hP hT.allows h₀
    have hT₀ := hwatch.drawn hT d₀
    obtain ⟨⟨x, hx⟩, w₁, ha, h₂⟩ := bind_ok h₁
    obtain ⟨z, w₂, hz, h₃⟩ := bind_ok h₂
    obtain ⟨hz', rfl⟩ := ofExcept_ok hz
    cases h₃
    rw [hT.vars] at k₀
    obtain ⟨da, sa, ka⟩ := ih hP hT₀ ha
    exact ⟨d₀.trans da, fun V hV m => .un (sa V hV m) (Term.unary_value hz' m),
      (k₀.append ka).whole (fun h => by cases h) fun _ _ _ => by simp [Exp.children]⟩
  | cast kind width a ih =>
    obtain ⟨hs₀, w₀, h₀, h₁⟩ := bind_ok h
    obtain ⟨d₀, k₀⟩ := hwatch.ok hP hT.allows h₀
    have hT₀ := hwatch.drawn hT d₀
    obtain ⟨⟨x, hx⟩, w₁, ha, h₂⟩ := bind_ok h₁
    obtain ⟨z, w₂, hz, h₃⟩ := bind_ok h₂
    obtain ⟨hz', rfl⟩ := ofExcept_ok hz
    cases h₃
    rw [hT.vars] at k₀
    obtain ⟨da, sa, ka⟩ := ih hP hT₀ ha
    exact ⟨d₀.trans da, fun V hV m => .cast (sa V hV m) (Term.castTo_value hz' m),
      (k₀.append ka).whole (fun h => by cases h) fun _ _ _ => by simp [Exp.children]⟩
  | ite c y n ihc ihy ihn =>
    obtain ⟨hs₀, w₀, h₀, h₁⟩ := bind_ok h
    obtain ⟨d₀, k₀⟩ := hwatch.ok hP hT.allows h₀
    have hT₀ := hwatch.drawn hT d₀
    obtain ⟨⟨x, hx⟩, w₁, hc, h₂⟩ := bind_ok h₁
    obtain ⟨⟨y, hy⟩, w₂, hyes, h₃⟩ := bind_ok h₂
    obtain ⟨⟨v, hv⟩, w₃, hno, h₄⟩ := bind_ok h₃
    obtain ⟨z, w₄, hz, h₅⟩ := bind_ok h₄
    obtain ⟨hz', rfl⟩ := ofExcept_ok hz
    cases h₅
    simp only [Exp.known, Bool.and_eq_true] at hP
    rw [hT.vars] at k₀
    obtain ⟨dc, sc, kc⟩ := ihc (hP.imp_left (·.1.1)) hT₀ hc
    obtain ⟨dy, sy, ky⟩ := ihy (hP.imp_left (·.1.2)) (hwatch.drawn hT₀ dc) hyes
    obtain ⟨dn, sn, kn⟩ := ihn (hP.imp_left (·.2))
      (hwatch.drawn (hwatch.drawn hT₀ dc) dy) hno
    exact ⟨((d₀.trans dc).trans dy).trans dn,
      fun V hV m => .ite (sc V hV m) (sy V hV m) (sn V hV m) (Term.choose_value hz' m),
      (((k₀.append kc).append ky).append kn).whole (fun h => by cases h)
        fun _ _ _ => by simp [Exp.children, or_assoc]⟩
  | extract hi lo a ih =>
    obtain ⟨hs₀, w₀, h₀, h₁⟩ := bind_ok h
    obtain ⟨d₀, k₀⟩ := hwatch.ok hP hT.allows h₀
    have hT₀ := hwatch.drawn hT d₀
    obtain ⟨⟨x, hx⟩, w₁, ha, h₂⟩ := bind_ok h₁
    obtain ⟨z, w₂, hz, h₃⟩ := bind_ok h₂
    obtain ⟨hz', rfl⟩ := ofExcept_ok hz
    cases h₃
    rw [hT.vars] at k₀
    obtain ⟨da, sa, ka⟩ := ih hP hT₀ ha
    exact ⟨d₀.trans da, fun V hV m => .extract (sa V hV m) (Term.extractBits_value hz' m),
      (k₀.append ka).whole (fun h => by cases h) fun _ _ _ => by simp [Exp.children]⟩
  | concat l r ihl ihr =>
    obtain ⟨hs₀, w₀, h₀, h₁⟩ := bind_ok h
    obtain ⟨d₀, k₀⟩ := hwatch.ok hP hT.allows h₀
    have hT₀ := hwatch.drawn hT d₀
    obtain ⟨⟨x, hx⟩, w₁, hl, h₂⟩ := bind_ok h₁
    obtain ⟨u, w₂, hu, h₃⟩ := bind_ok h₂
    obtain ⟨-, rfl⟩ := ofExcept_ok hu
    obtain ⟨⟨y, hy⟩, w₃, hr, h₄⟩ := bind_ok h₃
    obtain ⟨z, w₄, hz, h₅⟩ := bind_ok h₄
    obtain ⟨hz', rfl⟩ := ofExcept_ok hz
    cases h₅
    simp only [Exp.known, Bool.and_eq_true] at hP
    rw [hT.vars] at k₀
    obtain ⟨dl, sl, kl⟩ := ihl (hP.imp_left (·.1)) hT₀ hl
    obtain ⟨dr, sr, kr⟩ := ihr (hP.imp_left (·.2)) (hwatch.drawn hT₀ dl) hr
    exact ⟨(d₀.trans dl).trans dr,
      fun V hV m => .concat (sl V hV m) (sr V hV m) (Term.concatWords_value hz' m),
      ((k₀.append kl).append kr).whole (fun h => by cases h) fun _ _ _ => by simp [Exp.children, or_assoc]⟩
  | unknown desc type =>
    obtain ⟨hs₀, w₀, h₀, h₁⟩ := bind_ok h
    obtain ⟨d₀, k₀⟩ := hwatch.ok hP hT.allows h₀
    have hT₀ := hwatch.drawn hT d₀
    obtain ⟨t, w₁, ht, h₂⟩ := bind_ok h₁
    obtain ⟨hd, n, s, hs', rfl⟩ := fresh_ok ht
    cases h₂
    rw [hT.vars] at k₀
    exact ⟨d₀.trans hd, fun V hV m => .unknown hs', k₀.whole (fun h => by cases h) fun _ _ _ => by simp [Exp.children]⟩
  | letIn v value body ihv ihb =>
    obtain ⟨hs₀, w₀, h₀, h₁⟩ := bind_ok h
    obtain ⟨d₀, k₀⟩ := hwatch.ok hP hT.allows h₀
    have hT₀ := hwatch.drawn hT d₀
    obtain ⟨⟨x, hx⟩, w₁, hv, h₂⟩ := bind_ok h₁
    obtain ⟨⟨y, hy⟩, w₂, hb, h₃⟩ := bind_ok h₂
    cases h₃
    simp only [Exp.known, Bool.and_eq_true] at hP
    rw [hT.vars] at k₀
    obtain ⟨dv, sv, kv⟩ := ihv (hP.imp_left (·.1)) hT₀ hv
    have hT₁ := hwatch.drawn hT₀ dv
    have hbound {w : World} (hvars : (w.env side).vars = Table.put (w₁.env side).vars v x)
        (he : ∃ vars, w.env side = { w₁.env side with vars }) : Watched side I (T.put v x) w := by
      refine ⟨?_, by rw [hvars, hT₁.vars]⟩
      obtain ⟨vars, he⟩ := he
      rw [he]
      exact hwatch.vars vars hT₁.allows
    obtain ⟨db, w₃, w₄, hb', hvars, he⟩ := binding_ok hb fun _ _ hvars he hact =>
      (ihb (hP.imp_left (·.2)) (hbound hvars he) hact).1
    obtain ⟨-, sb, kb⟩ := ihb (hP.imp_left (·.2)) (hbound hvars he) hb'
    refine ⟨(d₀.trans dv).trans db, fun V hV m => .letIn (sv V hV m) ?_, ?_⟩
    · rw [← Model.store_put]
      exact sb _ (hV.put v x) m
    · have kbody := kb.bound sv (hP.imp (fun hk _ _ _ => Exp.Yields.unique hk.1)
        fun hm σ d b => Exp.not_somewhere fun _ _ => hwatch.nothing hm)
      exact ((k₀.append kv).append kbody).congr fun _ d b =>
        (Exp.somewhere_letIn (P := fun σ e => P σ e d b)).symm

/-- Without conditions to give, a translation only draws numbers for unknown values, and its term
stands for a value of the expression. -/
theorem translateWith_ok (e : Exp) {t : SomeTerm} {hs : List Hook}
    (h : translateWith side silent e w = .ok (t, hs) w') :
    hs = [] ∧ w.Drawn side w' ∧ Stands (w.env side).vars e t := by
  obtain ⟨hd, hst, hk⟩ :=
    translateWith_tells watches_silent e (.inr True.intro) ⟨True.intro, rfl⟩ h
  exact ⟨(hk.congr fun _ _ _ => iff_of_false (Exp.not_somewhere fun _ _ => id) id).eq_nil, hd, hst⟩

theorem translateChecked_ok {e : Exp} {t : SomeTerm} {hs : List Hook}
    (hside : (w.env side).sideRules = []) (h : translateChecked side e w = .ok (t, hs) w') :
    hs = [] ∧ w.Drawn side w' ∧ Stands (w.env side).vars e t := by
  obtain ⟨u, w₁, h₁, h₂⟩ := bind_ok h
  cases h₁
  obtain ⟨e₁, w₂, h₃, h₄⟩ := bind_ok h₂
  obtain ⟨rfl, rfl⟩ := env_ok h₃
  have henv : ∀ s, World.env { w with translations := w.translations + 1 } s = w.env s := by
    rintro ⟨⟩ <;> rfl
  dsimp only at h₄
  rw [henv, hside] at h₄
  obtain ⟨hhs, hd, hst⟩ := translateWith_ok e h₄
  rw [henv] at hst
  exact ⟨hhs, hd.counted, hst⟩

end Walk

end Precond
