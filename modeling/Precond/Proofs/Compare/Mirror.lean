import Precond.Proofs.Constraint.Given
import Precond.Proofs.Constraint.Spare
import Precond.Proofs.Env.Names
import Precond.Proofs.Run.Agreement
import Precond.Walk.Basic

/-! Two programs that mirror each other. In a model the second program shows what the first one does in
another model: its variables have agreeing values, compared call flags are equal, and so is all that
neither program owns (`Mirror.Shows`). Constraints of the two programs are paired if the second asks
for nothing more where the first lets through (`Mirror.Paired`); each form of constraint keeps them
paired, and the first program may be run before the second one (`Mirror.Paired.closed`). -/

namespace Precond

open IR

/-- The constants of two programs: those of variables and those of call flags. -/
structure Mirror where
  vars : Side → Table Var SomeTerm
  /-- The names of the constants of call flags. -/
  flag : Side → String → Prop
  /-- The flags of one function in both programs, if they are compared. -/
  tied : String → String → Prop
  /-- The goals that need not be proved, by name. -/
  spared : String → Bool
  separate (side : Side) : Separate (vars side)
  sorted (side : Side) : (vars side).lookup v = some t → t.1 ≠ .bool
  flagged : tied n n' → flag .orig n ∧ flag .mod n'

/-- The value of a constant after assignments. -/
theorem Model.Assigned.value {m m' : Model} {ps : List (SomeTerm × SomeTerm)} (ha : m.Assigned ps m')
    (hps : Simultaneous ps) {p : SomeTerm × SomeTerm} (hp : p ∈ ps) : p.1.value m' = p.2.value m := by
  obtain ⟨n, s, x, rfl⟩ := hps.const hp
  exact congrArg (Sigma.mk s) (ha.new hp)

namespace Mirror

/-- The constant belongs to a program: a variable stands for it, or it is a call flag. -/
inductive Owns (M : Mirror) (side : Side) : String → TSort → Prop
  | var : (M.vars side).lookup v = some ⟨s, .const n s⟩ → M.Owns side n s
  | flag : M.flag side n → M.Owns side n .bool

/-- The models differ at most in constants that belong to a program. -/
structure Off (M : Mirror) (side : Side) (m m' : Model) : Prop where
  func : m'.func = m.func
  const : ¬ M.Owns side n s → m'.const n s = m.const n s

/-- The second program is in the second model in the state of the first program in the first one. -/
structure Shows (M : Mirror) (m₁ m₂ : Model) : Prop where
  func : m₂.func = m₁.func
  store : (m₁.store (M.vars .orig)).Agrees (m₂.store (M.vars .mod))
  tied : M.tied n n' → m₁.const n .bool = m₂.const n' .bool
  rest : ¬ M.Owns .orig n s → ¬ M.Owns .mod n s → m₂.const n s = m₁.const n s

/-- Replacements of one variable by agreeing values, or of one call flag by the truth. -/
inductive Moves (M : Mirror) : SomeTerm × SomeTerm → SomeTerm × SomeTerm → Prop
  | var : (M.vars .orig).lookup v = some old → (M.vars .mod).lookup v = some old' →
      (∀ m₁ m₂, M.Shows m₁ m₂ → (new.value m₁).Agrees (new'.value m₂)) →
      M.Moves (old, new) (old', new')
  | flag : M.flag .orig n → M.flag .mod n' → (∀ k k', M.tied k k' → (k = n ↔ k' = n')) →
      M.Moves (⟨_, .const n .bool⟩, ⟨_, .truth true⟩) (⟨_, .const n' .bool⟩, ⟨_, .truth true⟩)

variable {M : Mirror} {m m₁ m₂ m₃ m₁' m₂' : Model} {side : Side}
  {p q : SomeTerm × SomeTerm} {ps qs : List (SomeTerm × SomeTerm)}

theorem Off.refl (M : Mirror) (side : Side) (m : Model) : M.Off side m m := ⟨rfl, fun _ => rfl⟩

theorem Off.trans (h₁ : M.Off side m₁ m₂) (h₂ : M.Off side m₂ m₃) : M.Off side m₁ m₃ :=
  ⟨h₂.func.trans h₁.func, fun hn => (h₂.const hn).trans (h₁.const hn)⟩

/-! ### Assignments -/

theorem forall₂_left {R : α → β → Prop} {xs : List α} {ys : List β} (h : List.Forall₂ R xs ys) :
    ∀ x ∈ xs, ∃ y ∈ ys, R x y := by
  induction h with
  | nil => exact nofun
  | cons hxy _ ih =>
    intro x hx
    rcases List.mem_cons.mp hx with rfl | hx
    · exact ⟨_, List.mem_cons_self, hxy⟩
    · obtain ⟨y, hy, hR⟩ := ih x hx
      exact ⟨y, List.mem_cons_of_mem _ hy, hR⟩

theorem forall₂_right {R : α → β → Prop} {xs : List α} {ys : List β} (h : List.Forall₂ R xs ys) :
    ∀ y ∈ ys, ∃ x ∈ xs, R x y := forall₂_left (R := fun y x => R x y) h.flip

/-- What is replaced belongs to the first program. -/
theorem Moves.owned (h : M.Moves p q) {n : String} {s : TSort} (hp : p.1 = ⟨s, .const n s⟩) :
    M.Owns .orig n s := by
  cases h with
  | var hv => exact .var (hv.trans (congrArg some hp))
  | flag hn =>
    cases hp
    exact .flag hn

theorem Moves.owned' (h : M.Moves p q) {n : String} {s : TSort} (hq : q.1 = ⟨s, .const n s⟩) :
    M.Owns .mod n s := by
  cases h with
  | var _ hv => exact .var (hv.trans (congrArg some hq))
  | flag _ hn =>
    cases hq
    exact .flag hn

/-- A variable is replaced in both programs or in none. -/
theorem Moves.lookup_iff (h : M.Moves p q) (v : Var) :
    (M.vars .orig).lookup v = some p.1 ↔ (M.vars .mod).lookup v = some q.1 := by
  cases h with
  | var hu hu' =>
    constructor
    · intro hv
      cases (M.separate .orig).inj hu hv
      exact hu'
    · intro hv
      cases (M.separate .mod).inj hu' hv
      exact hu
  | flag =>
    constructor
    · exact fun hv => absurd rfl (M.sorted .orig hv)
    · exact fun hv => absurd rfl (M.sorted .mod hv)

theorem Moves.value (h : M.Moves p q) {v : Var} (hv : (M.vars .orig).lookup v = some p.1)
    (hm : M.Shows m₁ m₂) : (p.2.value m₁).Agrees (q.2.value m₂) := by
  cases h with
  | var _ _ hvalue => exact hvalue m₁ m₂ hm
  | flag => exact absurd rfl (M.sorted .orig hv)

theorem Moves.flag_iff (h : M.Moves p q) {k k' : String} (ht : M.tied k k') :
    p.1 = ⟨_, .const k .bool⟩ ↔ q.1 = ⟨_, .const k' .bool⟩ := by
  cases h with
  | var hu hu' =>
    constructor
    · rintro rfl
      exact absurd rfl (M.sorted .orig hu)
    · rintro rfl
      exact absurd rfl (M.sorted .mod hu')
  | @flag n n' _ _ hiff =>
    have hname {a b : String} : ((⟨.bool, .const a .bool⟩ : SomeTerm) = ⟨.bool, .const b .bool⟩) ↔ b = a := by
      constructor
      · intro h
        cases h
        rfl
      · rintro rfl
        rfl
    rw [hname, hname, hiff k k' ht]

theorem Moves.flag_new (h : M.Moves p q) {k : String} (hp : p.1 = ⟨_, .const k .bool⟩) :
    p.2 = ⟨_, .truth true⟩ ∧ q.2 = ⟨_, .truth true⟩ := by
  cases h with
  | var hu => exact absurd (congrArg Sigma.fst hp) (M.sorted .orig hu)
  | flag => exact ⟨rfl, rfl⟩

/-- Assignments to all that is replaced, in one program. -/
theorem off_update (hps : Simultaneous ps)
    (h : ∀ p ∈ ps, ∀ n s, p.1 = ⟨s, .const n s⟩ → M.Owns side n s) (m : Model) :
    M.Off side m (m.update (Constr.swaps ps)) :=
  have ha := hps.assigned_update m
  ⟨ha.func, fun hn => ha.other fun p hp he => hn (h p hp _ _ he)⟩

theorem off_left (hps : Simultaneous ps) (h : List.Forall₂ M.Moves ps qs) (m : Model) :
    M.Off .orig m (m.update (Constr.swaps ps)) :=
  off_update hps (fun p hp _ _ he => let ⟨_, _, hpq⟩ := forall₂_left h p hp; hpq.owned he) m

theorem off_right (hqs : Simultaneous qs) (h : List.Forall₂ M.Moves ps qs) (m : Model) :
    M.Off .mod m (m.update (Constr.swaps qs)) :=
  off_update hqs (fun q hq _ _ he => let ⟨_, _, hpq⟩ := forall₂_right h q hq; hpq.owned' he) m

/-- A variable keeps its value where it is not replaced. -/
theorem store_other (ha : m.Assigned ps m') {v : Var}
    (hv : ∀ p ∈ ps, (M.vars side).lookup v ≠ some p.1) :
    m'.store (M.vars side) v = m.store (M.vars side) v := by
  cases hl : (M.vars side).lookup v with
  | none =>
    rw [Model.store, Model.store, hl]
    rfl
  | some t =>
    obtain ⟨n, s, rfl⟩ := (M.separate side).const hl
    rw [Model.store_of_lookup hl, Model.store_of_lookup hl]
    exact congrArg (Sigma.mk s) (ha.other fun p hp he => hv p hp (he ▸ hl))

/-- What both programs assign, the second one shows. -/
theorem Shows.update (hm : M.Shows m₁ m₂) (hps : Simultaneous ps) (hqs : Simultaneous qs)
    (h : List.Forall₂ M.Moves ps qs) :
    M.Shows (m₁.update (Constr.swaps ps)) (m₂.update (Constr.swaps qs)) where
  func := hm.func
  store v := by
    have ha₁ := hps.assigned_update m₁
    have ha₂ := hqs.assigned_update m₂
    by_cases hv : ∃ p ∈ ps, (M.vars .orig).lookup v = some p.1
    · obtain ⟨p, hp, hv⟩ := hv
      obtain ⟨q, hq, hpq⟩ := forall₂_left h p hp
      rw [Model.store_of_lookup hv, Model.store_of_lookup ((hpq.lookup_iff v).mp hv),
        ha₁.value hps hp, ha₂.value hqs hq]
      exact hpq.value hv hm
    · rw [store_other ha₁ fun p hp hl => hv ⟨p, hp, hl⟩, store_other ha₂ fun q hq hl => ?_]
      · exact hm.store v
      · obtain ⟨p, hp, hpq⟩ := forall₂_right h q hq
        exact hv ⟨p, hp, (hpq.lookup_iff v).mpr hl⟩
  tied {k k'} ht := by
    have ha₁ := hps.assigned_update m₁
    have ha₂ := hqs.assigned_update m₂
    by_cases hk : ∃ p ∈ ps, p.1 = ⟨_, .const k .bool⟩
    · obtain ⟨p, hp, hk⟩ := hk
      obtain ⟨q, hq, hpq⟩ := forall₂_left h p hp
      obtain ⟨hnew, hnew'⟩ := hpq.flag_new hk
      have hp : (⟨_, .const k .bool⟩, ⟨_, .truth true⟩) ∈ ps := by rwa [← hk, ← hnew]
      have hq : (⟨_, .const k' .bool⟩, ⟨_, .truth true⟩) ∈ qs := by
        rwa [← (hpq.flag_iff ht).mp hk, ← hnew']
      exact (ha₁.new hp).trans (ha₂.new hq).symm
    · rw [ha₁.other fun p hp he => hk ⟨p, hp, he⟩, ha₂.other fun q hq he => ?_]
      · exact hm.tied ht
      · obtain ⟨p, hp, hpq⟩ := forall₂_right h q hq
        exact hk ⟨p, hp, (hpq.flag_iff ht).mpr he⟩
  rest hn hn' :=
    ((off_right hqs h m₂).const hn').trans ((hm.rest hn hn').trans ((off_left hps h m₁).const hn).symm)

/-! ### Constraints -/

/-- Whether a constraint holds in a model, apart from the goals that need not be proved. -/
def passes (M : Mirror) (c : Constr) (m : Model) : Bool := (c.spare M.spared).holds m

/-- From a state on the first program is let through, or comes to another state, in which `ret` is
asked for; where the second program shows that state, it is let through, or comes to a state where it
shows what the first one has come to, and `ret'` is asked for. -/
def Follows (M : Mirror) (ret ret' c c' : Constr) (m₁ : Model) : Prop :=
  M.passes c m₁ = true ∨ ∃ m₁', M.Off .orig m₁ m₁' ∧ M.passes c m₁ = M.passes ret m₁' ∧
    ∀ m₂, M.Shows m₁ m₂ → M.passes c' m₂ = true ∨
      ∃ m₂', M.Off .mod m₂ m₂' ∧ M.Shows m₁' m₂' ∧ M.passes c' m₂ = M.passes ret' m₂'

/-- Constraints at one place of both programs, for `ret` and `ret'` at the returns. -/
structure Paired (M : Mirror) (ret ret' c c' : Constr) : Prop where
  proper : ret.Proper → c.Proper
  proper' : ret'.Proper → c'.Proper
  follows (m : Model) : M.Follows ret ret' c c' m

variable {ret ret' c c' d d' : Constr} {i j : Nat}

theorem Paired.returned : M.Paired ret ret' ret ret' :=
  ⟨fun h => h, fun h => h, fun m => .inr ⟨m, .refl .., rfl, fun m₂ hm => .inr ⟨m₂, .refl .., hm, rfl⟩⟩⟩

/-- Nothing is asked for. -/
theorem Paired.nothing (h : c.Proper) (h' : c'.Proper) (ht : ∀ m, M.passes c m = true) :
    M.Paired ret ret' c c' := ⟨fun _ => h, fun _ => h', fun m => .inl (ht m)⟩

/-- Under conditions on the state: what the first program takes for granted lets the second prove what
it has to. -/
theorem Paired.guarded (h : M.Paired ret ret' d d') (hc : d.Proper → c.Proper)
    (hc' : d'.Proper → c'.Proper)
    {given given' goal' : Model → Bool} (hs : ∀ m, M.passes c m = (!given m || M.passes d m))
    (hs' : ∀ m, M.passes c' m = (!given' m || (goal' m && M.passes d' m)))
    (hgoal : ∀ m₁ m₂, M.Shows m₁ m₂ → given m₁ = true → goal' m₂ = true) : M.Paired ret ret' c c' := by
  refine ⟨fun hr => hc (h.proper hr), fun hr => hc' (h.proper' hr), fun m => ?_⟩
  rw [Follows, hs]
  cases hg : given m with
  | false => exact .inl rfl
  | true =>
    refine (h.follows m).imp id ?_
    rintro ⟨m₁', ho, he, hrest⟩
    refine ⟨m₁', ho, he, fun m₂ hm => ?_⟩
    rw [hs', hgoal m m₂ hm hg, Bool.true_and]
    cases given' m₂ with
    | false => exact .inl rfl
    | true => exact hrest m₂ hm

theorem Paired.branch (h : M.Paired ret ret' c c') (hd : M.Paired ret ret' d d') {jump jump' : String}
    {p p' : Term .bool} (hp : ∀ m₁ m₂, M.Shows m₁ m₂ → p.holds m₁ = p'.holds m₂) :
    M.Paired ret ret' (.branch i jump p c d) (.branch j jump' p' c' d') := by
  refine ⟨fun hr => Constr.proper_branch (h.proper hr) (hd.proper hr),
    fun hr => Constr.proper_branch (h.proper' hr) (hd.proper' hr), fun m => ?_⟩
  have hsay (c d : Constr) (i : Nat) (jump : String) (p : Term .bool) (m : Model) :
      M.passes (.branch i jump p c d) m = if p.holds m then M.passes c m else M.passes d m := rfl
  rw [Follows, hsay]
  cases hpm : p.holds m with
  | true =>
    refine (h.follows m).imp id ?_
    rintro ⟨m₁', ho, he, hrest⟩
    refine ⟨m₁', ho, he, fun m₂ hm => ?_⟩
    rw [hsay, ← hp m m₂ hm, hpm]
    exact hrest m₂ hm
  | false =>
    refine (hd.follows m).imp id ?_
    rintro ⟨m₁', ho, he, hrest⟩
    refine ⟨m₁', ho, he, fun m₂ hm => ?_⟩
    rw [hsay, ← hp m m₂ hm, hpm]
    exact hrest m₂ hm

theorem Paired.subst (h : M.Paired ret ret' c c') (hps : Simultaneous ps) (hqs : Simultaneous qs)
    (hpq : List.Forall₂ M.Moves ps qs) : M.Paired ret ret' (.subst i c ps) (.subst j c' qs) := by
  refine ⟨fun hr => Constr.proper_subst (h.proper hr) hps,
    fun hr => Constr.proper_subst (h.proper' hr) hqs, fun m => ?_⟩
  have hsay (c : Constr) (i : Nat) (ps : List (SomeTerm × SomeTerm)) (m : Model) :
      M.passes (.subst i c ps) m = M.passes c (m.update (Constr.swaps ps)) := rfl
  rw [Follows, hsay]
  refine (h.follows _).imp id ?_
  rintro ⟨m₁', ho, he, hrest⟩
  refine ⟨m₁', (off_left hps hpq m).trans ho, he, fun m₂ hm => ?_⟩
  rw [hsay]
  refine (hrest _ (hm.update hps hqs hpq)).imp id ?_
  rintro ⟨m₂', ho', hm', he'⟩
  exact ⟨m₂', (off_right hqs hpq m₂).trans ho', hm', he'⟩

/-! ### One program after the other -/

/-- What one program does leaves the variables of the other one as they are. -/
theorem Off.store_other (ho : M.Off side m m') {side' : Side}
    (hd : ∀ n s, M.Owns side' n s → ¬ M.Owns side n s) :
    m'.store (M.vars side') = m.store (M.vars side') := by
  funext v
  cases hl : (M.vars side').lookup v with
  | none =>
    rw [Model.store, Model.store, hl]
    rfl
  | some t =>
    obtain ⟨n, s, rfl⟩ := (M.separate side').const hl
    rw [Model.store_of_lookup hl, Model.store_of_lookup hl]
    exact congrArg (Sigma.mk s) (ho.const (hd n s (.var hl)))

/-- If the first program is run before the second one, and both start in one state, then the second one
comes to what the first one has come to. -/
theorem Paired.closed {post : Constr} (h : M.Paired ret post c ret)
    (hd : ∀ n s, M.Owns .orig n s → ¬ M.Owns .mod n s)
    (hpost : ∀ m, M.Shows m m → M.passes post m = true) (hm : M.Shows m m) : M.passes c m = true := by
  rcases h.follows m with hc | ⟨m₁, ho, hc, hrest⟩
  · exact hc
  have hd' : ∀ n s, M.Owns .mod n s → ¬ M.Owns .orig n s := fun n s hn hn' => hd n s hn' hn
  -- the first program leaves the state of the second one as it is
  have hm₁ : M.Shows m m₁ := {
    func := ho.func
    store := by
      rw [ho.store_other hd']
      exact hm.store
    tied := fun ht => (hm.tied ht).trans (ho.const (hd' _ _ (.flag (M.flagged ht).2))).symm
    rest := fun hn _ => ho.const hn }
  rw [hc]
  rcases hrest m₁ hm₁ with hret | ⟨m₂, ho', hm₂, hret⟩
  · exact hret
  rw [hret]
  refine hpost m₂ {
    func := rfl
    store := ?_
    tied := fun ht => (ho'.const (hd _ _ (.flag (M.flagged ht).1))).trans (hm₂.tied ht)
    rest := fun _ _ => rfl }
  rw [ho'.store_other hd]
  exact hm₂.store

end Mirror

end Precond
