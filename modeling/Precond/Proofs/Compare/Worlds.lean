import Precond.Proofs.Compare.Alone
import Precond.Proofs.Run.Sub

/-! Models of two worlds. Where constants are different ones, each model of one world matches a model of
the other one (`Compare.Distinct.exists_match`). In models that match the same is asked for, and they
match still when the definitions of both programs have been executed in both. -/

namespace Precond

open IR Walk

/-- Each variable has a value of its type, if there is any. -/
def Store.Typed (σ : Store) : Prop := ∀ v s, v.type.sort = .ok s → (σ v).1 = s

/-- Some values of the types of variables. -/
def someStore : Store := fun v =>
  match v.type.sort with
  | .ok s => ⟨s, default⟩
  | .error _ => default

theorem typed_someStore : Store.Typed someStore := by
  intro v s hs
  rw [someStore, hs]

/-- The values of the variables of a table, and those of a store for other variables. -/
def Model.over (m : Model) (V : Table Var SomeTerm) (σ : Store) : Store :=
  fun v => (V.lookup v).elim (σ v) (·.value m)

theorem Model.over_of_lookup {V : Table Var SomeTerm} {v : Var} {t : SomeTerm} (h : V.lookup v = some t)
    (m : Model) (σ : Store) : m.over V σ v = t.value m := by
  rw [Model.over, h]
  rfl

theorem Model.over_of_none {V : Table Var SomeTerm} {v : Var} (h : V.lookup v = none) (m : Model)
    (σ : Store) : m.over V σ v = σ v := by
  rw [Model.over, h]
  rfl

theorem Store.Typed.over {V : Table Var SomeTerm} {σ : Store} (hσ : σ.Typed)
    (hV : ∀ v t s, V.lookup v = some t → v.type.sort = .ok s → t.1 = s) (m : Model) :
    Store.Typed (m.over V σ) := by
  intro v s hs
  cases hl : V.lookup v with
  | none =>
    rw [Model.over_of_none hl]
    exact hσ v s hs
  | some t =>
    rw [Model.over_of_lookup hl]
    exact hV v t s hl hs

theorem Env.Grants.sort {e : Env} {name : String} {type : Ty} {t : SomeTerm} {s : TSort}
    (h : e.Grants name type t) (hs : type.sort = .ok s) : t.1 = s := by
  obtain ⟨n, s', rfl, hs', -⟩ := h
  cases hs.symm.trans hs'
  rfl

/-! ### Worlds in which variables have been noted -/

/-- Variables may have got constants, and nothing else has changed. -/
def Env.Labels (e e₁ : Env) : Prop := ∃ names vars inits, e₁ = { e with names, vars, inits }

theorem Env.Labels.refl (e : Env) : e.Labels e := ⟨_, _, _, rfl⟩

theorem Env.Labels.trans {e e₁ e₂ : Env} : e.Labels e₁ → e₁.Labels e₂ → e.Labels e₂ := by
  rintro ⟨_, _, _, rfl⟩ ⟨names, vars, inits, rfl⟩
  exact ⟨names, vars, inits, rfl⟩

theorem Walk.Binds.labels {side : Side} {vars : List Var} {w w₁ : World} (h : Binds side vars w w₁)
    (side' : Side) : (w.env side').Labels (w₁.env side') := by
  by_cases hs : side' = side
  · exact hs ▸ h.env
  · exact h.other hs ▸ .refl _

/-- Variables have got constants in both programs, and values at entry have got none. -/
structure World.Compares (vars : List Var) (w w₁ : World) : Prop where
  bound (side : Side) :
    (w₁.env side).vars.lookup u ≠ none ↔ u ∈ vars ∨ (w.env side).vars.lookup u ≠ none
  entry (side : Side) : (w₁.env side).inits.lookup u ≠ none ↔ (w.env side).inits.lookup u ≠ none
  orderly : w.Orderly → w₁.Orderly
  same (side : Side) : (w.env side).Labels (w₁.env side)

namespace World.Compares

variable {w w₁ w₂ : World} {us vs : List Var} {v : Var} {x y : SomeTerm}

theorem of_env (h : ∀ side, w₁.env side = w.env side) : Compares [] w w₁ where
  bound {u} side := by
    rw [h, List.mem_nil_iff, false_or]
  entry {u} side := by rw [h]
  orderly hw := ⟨fun side => h side ▸ hw.vars side, fun side => h side ▸ hw.inits side⟩
  same side := h side ▸ .refl _

theorem trans (h₁ : Compares us w w₁) (h₂ : Compares vs w₁ w₂) : Compares (us ++ vs) w w₂ where
  bound {u} side := by
    rw [h₂.bound, h₁.bound, List.mem_append]
    tauto
  entry side := (h₂.entry side).trans (h₁.entry side)
  orderly := h₂.orderly ∘ h₁.orderly
  same side := (h₁.same side).trans (h₂.same side)

theorem congr (hc : Compares us w w₁) (h : ∀ u, u ∈ vs ↔ u ∈ us) : Compares vs w w₁ where
  bound side := (hc.bound side).trans (or_congr_left (h _).symm)
  entry := hc.entry
  orderly := hc.orderly
  same := hc.same

/-- The variable is asked for in one program after the other. -/
theorem mkVar (hx : on .orig (Env.mkVar v) w = .ok x w₁) (hy : on .mod (Env.mkVar v) w₁ = .ok y w₂) :
    Compares [v] w w₂ := by
  have hb := mkVar_binds hx
  have hb' := mkVar_binds hy
  have hr := mkVar_records hx
  have hr' := mkVar_records hy
  have horig : w₂.env .orig = w₁.env .orig := hb'.other nofun
  have hmod : w₁.env .mod = w.env .mod := hb.other nofun
  refine ⟨fun {u} side => ?_, fun {u} side => ?_, hr'.orderly ∘ hr.orderly,
    fun side => (hb.labels side).trans (hb'.labels side)⟩ <;> cases side
  · rw [horig, hb.bound]
  · rw [hb'.bound, hmod]
  · rw [horig, hr.entry, List.mem_nil_iff, false_or]
  · rw [hr'.entry, hmod, List.mem_nil_iff, false_or]

end World.Compares

/-- The goal that a variable is equal in both programs. -/
def PairRel.equalGoal (label : String) (v : Var) : Walk Constr := do
  let x ← on .orig (Env.mkVar v)
  let y ← on .mod (Env.mkVar v)
  equate (label ++ " " ++ v.name ++ ": " ++ x.toText ++ " = " ++ y.toText) x y

theorem PairRel.builds_equalGoal (given : Constr → Prop) (label : String) (v : Var) :
    Builds given (equalGoal label v) fun c => [c] :=
  .skip (.on (.mkVar v) _) fun _ => .skip (.on (.mkVar v) _) fun _ => .equate ..

theorem PairRel.equalGoal_ok {w w' : World} {g : Constr} {label : String} {v : Var}
    (h : equalGoal label v w = .ok g w') : w.Compares [v] w' ∧ ∀ {V V' : Table Var SomeTerm},
      Table.Grows (w'.env .orig).vars V → Table.Grows (w'.env .mod).vars V' →
        g.Means fun m => (m.store V v).Agrees (m.store V' v) := by
  obtain ⟨x, w₁, hx, h₁⟩ := bind_ok h
  obtain ⟨y, w₂, hy, h₂⟩ := bind_ok h₁
  obtain ⟨p, rfl, rfl, hp⟩ := equate_ok h₂
  obtain ⟨-, -, hxv⟩ := mkVar_ok False (fun _ => False) hx
  obtain ⟨-, -, hyv⟩ := mkVar_ok False (fun _ => False) hy
  have horig : w₂.env .orig = w₁.env .orig := (mkVar_binds hy).other nofun
  refine ⟨(World.Compares.mkVar hx hy).trans (.of_env fun side => by cases side <;> rfl),
    fun hV hV' => ⟨Constr.proper_goal _ _ _ _, fun m => ?_⟩⟩
  rw [Model.store_of_lookup (hV _ _ (horig.symm ▸ hxv : (w₂.env .orig).vars.lookup v = some x)),
    Model.store_of_lookup (hV' _ _ hyv)]
  exact hp m

/-- Variables get constants when they are compared, if they have none. -/
theorem PairRel.equalVars_ok {w w' : World} {c : Constr} {vars : List Var} {label : String}
    (h : equalVars vars label w = .ok c w') :
    w.Compares vars w' ∧ c.Means (w'.scene.Equal vars) := by
  obtain ⟨goals, w₁, hgoals, hclause⟩ := bind_ok h
  obtain ⟨rfl, rfl⟩ := mkClause_ok hclause
  have hmem (v : Var) : v ∈ sortByName vars ↔ v ∈ vars := List.mem_mergeSort
  have hall {vs : List Var} {w : World} {gs : List Constr}
      (h : vs.mapM (equalGoal label) w = .ok gs w₁) : w.Compares vs w₁ ∧
        List.Forall₂ (fun v g => g.Means fun m => (m.store (w₁.env .orig).vars v).Agrees
          (m.store (w₁.env .mod).vars v)) vs gs := by
    induction vs generalizing w gs with
    | nil =>
      cases h
      exact ⟨.of_env fun _ => rfl, .nil⟩
    | cons v vs ih =>
      rw [List.mapM_cons] at h
      obtain ⟨g, w₂, hg, h⟩ := bind_ok h
      obtain ⟨gs, w₃, hgs, h⟩ := bind_ok h
      cases h
      obtain ⟨hstep, hmeans⟩ := equalGoal_ok hg
      obtain ⟨hrest, hgoals⟩ := ih hgs
      have hlater := (Builds.nodes fun v _ => builds_equalGoal _ label v).later hgs
      exact ⟨hstep.trans hrest, .cons (hmeans (hlater .orig).vars (hlater .mod).vars) hgoals⟩
  obtain ⟨hcompares, hforall⟩ := hall hgoals
  have hnode : w₁.Compares [] { w₁ with nodes := w₁.nodes + 1 } :=
    .of_env fun side => by cases side <;> rfl
  have hc := Constr.Means.clause w₁.nodes hforall
  refine ⟨(hcompares.trans hnode).congr fun u => ?_, hc.proper, fun m => (hc.holds m).trans ?_⟩
  · rw [List.append_nil, hmem]
  · simp only [hmem]
    rfl

/-- Environments as they are set up: nothing has a constant, and nothing is kept. -/
structure World.Fresh (w : World) : Prop where
  vars (side : Side) : (w.env side).vars = []
  inits (side : Side) : (w.env side).inits = []
  called (side : Side) : (w.env side).called = []
  funcs (side : Side) : (w.env side).funcs = []
  reach (side : Side) : (w.env side).reach = []
  sideRules (side : Side) : (w.env side).sideRules = []
  handlers (side : Side) : (w.env side).handlers = []
  frame (side : Side) : (w.env side).frame = .start

theorem World.Fresh.tidy {w : World} (h : w.Fresh) (side : Side) : (w.env side).Tidy := by
  refine ⟨fun hl => ?_, fun hl => ?_, fun hl => ?_, fun hl => ?_⟩
  · rw [h.vars] at hl
    cases hl
  · rw [h.inits] at hl
    cases hl
  · rw [h.called] at hl
    cases hl
  · rw [h.funcs] at hl
    cases hl

/-- These variables have constants, and the values at entry of those. -/
structure World.Notes (list entries : Side → List Var) (w : World) : Prop where
  vars (side : Side) : (w.env side).vars.lookup v ≠ none ↔ v ∈ list side
  inits (side : Side) : (w.env side).inits.lookup v ≠ none ↔ v ∈ entries side
  orderly : w.Orderly
  tidy (side : Side) : (w.env side).Tidy

/-- The values at entry are noted for both programs. -/
theorem World.Fresh.notes {w w₁ w₂ : World} {list : Side → List Var} {first second : List Constr}
    (h : w.Fresh) (h₁ : snapshot .orig (list .orig) w = .ok first w₁)
    (h₂ : snapshot .mod (list .mod) w₁ = .ok second w₂) : w₂.Notes list list := by
  obtain ⟨hb₁, -⟩ := snapshot_ok h₁
  obtain ⟨hb₂, -⟩ := snapshot_ok h₂
  have hr₁ := snapshot_records h₁
  have hr₂ := snapshot_records h₂
  have horig : w₂.env .orig = w₁.env .orig := hb₂.other nofun
  have hmod : w₁.env .mod = w.env .mod := hb₁.other nofun
  refine ⟨fun {v} side => ?_, fun {v} side => ?_, hr₂.orderly (hr₁.orderly ?_), fun side => ?_⟩
  · cases side with
    | orig =>
      rw [horig, hb₁.bound, h.vars]
      simp
    | mod =>
      rw [hb₂.bound, hmod, h.vars]
      simp
  · cases side with
    | orig =>
      rw [horig, hr₁.entry, h.inits]
      simp
    | mod =>
      rw [hr₂.entry, hmod, h.inits]
      simp
  · refine ⟨fun side => ?_, fun side => ?_⟩
    · rw [h.vars]
      exact List.nodup_nil
    · rw [h.inits]
      exact List.nodup_nil
  · have hl₁ := (builds_snapshot (fun _ => False) .orig _).later h₁ side
    have hl₂ := (builds_snapshot (fun _ => False) .mod _).later h₂ side
    exact (hl₁.trans hl₂).gives.tidy (h.tidy side)

namespace World.Notes

variable {w w₁ : World} {list entries : Side → List Var} {vars : List Var} {P : Var → Prop}
  {side : Side} {v : Var}

theorem compares (h : w.Notes list entries) (hc : w.Compares vars w₁)
    (hl : ∀ side, (w.env side).Later False (w₁.env side)) :
    w₁.Notes (fun side => vars ++ list side) entries where
  vars {v} side := by rw [hc.bound, h.vars, List.mem_append]
  inits side := (hc.entry side).trans (h.inits side)
  orderly := hc.orderly h.orderly
  tidy side := (hl side).gives.tidy (h.tidy side)

theorem within (h : w.Notes list entries) (hP : ∀ side, ∀ v ∈ list side, P v)
    (hE : ∀ side, ∀ v ∈ entries side, P v) : w.Within P where
  vars side hv := hP side _ ((h.vars side).mp (hv ▸ Option.some_ne_none _))
  inits side hv := hE side _ ((h.inits side).mp (hv ▸ Option.some_ne_none _))

theorem bound (h : w.Notes list entries) (hv : ∀ side, v ∈ list side) : w.scene.Bound v :=
  fun side => Option.ne_none_iff_exists'.mp ((h.vars side).mpr (hv side))

end World.Notes

namespace Compare

variable {w w' : World} {m m' : Model}

/-- All constants of variables and of values at entry are different ones. -/
structure Distinct (w : World) : Prop extends Apart w where
  entries : (w.env .orig).inits.lookup u = some t → (w.env .mod).inits.lookup v ≠ some t

theorem Distinct.earlier (h : Distinct w')
    (hv : ∀ side, Table.Grows (w.env side).vars (w'.env side).vars)
    (hi : ∀ side, Table.Grows (w.env side).inits (w'.env side).inits) : Distinct w where
  vars hu hv' := h.vars (hv _ _ _ hu) (hv _ _ _ hv')
  const side hu := h.const side (hi _ _ _ hu)
  inits side side' hu hv' := h.inits side side' (hv _ _ _ hu) (hi _ _ _ hv')
  entries hu hv' := h.entries (hi _ _ _ hu) (hi _ _ _ hv')

/-- In some model variables, and values at entry, have the values of given stores. -/
theorem Distinct.exists_model (hd : Distinct w) (ht : ∀ side, (w.env side).Tidy)
    {value entry : Side → Store} (hvalue : ∀ side, Store.Typed (value side))
    (hentry : ∀ side, Store.Typed (entry side)) (m : Model) : ∃ m' : Model, ∀ side,
      (∀ v t, (w.env side).vars.lookup v = some t → t.value m' = value side v) ∧
        ∀ v t, (w.env side).inits.lookup v = some t → t.value m' = entry side v := by
  let Vs := [((w.env .orig).vars, value .orig), ((w.env .orig).inits, entry .orig),
    ((w.env .mod).vars, value .mod), ((w.env .mod).inits, entry .mod)]
  have hcases {A : Table Var SomeTerm × Store → Prop}
      (h : ∀ side, A ((w.env side).vars, value side) ∧ A ((w.env side).inits, entry side)) :
      ∀ p ∈ Vs, A p := by
    simp only [Vs, List.forall_mem_cons]
    exact ⟨(h .orig).1, (h .orig).2, (h .mod).1, (h .mod).2, nofun⟩
  have hsort {side : Side} {name : String} {v : Var} {t : SomeTerm} {σ : Store}
      (h : (w.env side).Grants name v.type t) (hσ : Store.Typed σ) : (σ v).1 = t.1 := by
    obtain ⟨n, s, rfl, hs, -⟩ := h
    exact hσ v s hs
  have hinits (side : Side) : Separate (w.env side).inits := by
    refine ⟨hd.const side, fun {u t v} hu hv => ?_⟩
    obtain ⟨hname, htype⟩ := ((ht side).inits hu).inj ((ht side).inits hv)
    rw [← String.toList_inj, String.toList_append, String.toList_append] at hname
    exact congr (congrArg Var.mk (String.toList_inj.mp (List.append_cancel_left hname))) htype
  have hpairwise : Vs.Pairwise fun p q => ∀ u v t, p.1.lookup u = some t → q.1.lookup v ≠ some t := by
    simp only [Vs, List.pairwise_cons, List.forall_mem_cons]
    exact ⟨⟨fun _ _ _ => hd.inits .orig .orig, fun _ _ _ => hd.vars, fun _ _ _ => hd.inits .orig .mod, nofun⟩,
      ⟨fun _ _ _ hu hv => hd.inits .mod .orig hv hu, fun _ _ _ => hd.entries, nofun⟩,
      ⟨fun _ _ _ => hd.inits .mod .mod, nofun⟩, nofun, .nil⟩
  obtain ⟨m', hm'⟩ := Model.exists_stores
    (hcases fun side => ⟨(ht side).named.separate, hinits side⟩)
    (hcases fun side => ⟨fun v t h => hsort ((ht side).vars h) (hvalue side),
      fun v t h => hsort ((ht side).inits h) (hentry side)⟩) hpairwise m
  have hmem (side : Side) : ((w.env side).vars, value side) ∈ Vs ∧ ((w.env side).inits, entry side) ∈ Vs := by
    cases side <;> simp [Vs]
  exact ⟨m', fun side => ⟨hm' _ (hmem side).1, hm' _ (hmem side).2⟩⟩

/-- For each model of one world there is one of the other world with the same values. Values at entry of
which the first world does not tell are those of the variables. -/
theorem Distinct.exists_match (hd : Distinct w') (ht : ∀ side, (w.env side).Tidy)
    (ht' : ∀ side, (w'.env side).Tidy) (m : Model) :
    ∃ m', w.Match True w' m m' ∧ ∀ side v t i, (w'.env side).vars.lookup v = some t →
      (w'.env side).inits.lookup v = some i → (w.env side).inits.lookup v = none →
        i.value m' = t.value m' := by
  have hvalue (side : Side) : Store.Typed (m.over (w.env side).vars someStore) :=
    typed_someStore.over (fun v t s hv hs => ((ht side).vars hv).sort hs) m
  have hentry (side : Side) :
      Store.Typed (m.over (w.env side).inits (m.over (w.env side).vars someStore)) :=
    (hvalue side).over (fun v t s hv hs => ((ht side).inits hv).sort hs) m
  obtain ⟨m', hm'⟩ := hd.exists_model ht' hvalue hentry m
  refine ⟨m', ⟨fun {v t t'} side hv hv' => ?_, fun {v t t'} side _ hv hv' => ?_⟩,
    fun side v t i hv hi hnone => ?_⟩
  · rw [(hm' side).1 v t' hv', Model.over_of_lookup hv]
  · rw [(hm' side).2 v t' hv', Model.over_of_lookup hv]
  · rw [(hm' side).2 v i hi, (hm' side).1 v t hv, Model.over_of_none hnone]

/-! ### What models that match have in common -/

/-- Variables of two tables that have equal values have equal values still when definitions have been
executed whose variables both tables have. -/
theorem assigns_match {T T' U U' : Table Var SomeTerm} {ds : List Def} {n n' : Model}
    (hU : Table.Grows T U) (hU' : Table.Grows T' U')
    (hm : ∀ v t t', T.lookup v = some t → T'.lookup v = some t' → t.value m = t'.value m')
    (ha : Assigns ds (m.store U) (n.store U)) (ha' : Assigns ds (m'.store U') (n'.store U'))
    (hk : ds.all (·.rhs.known))
    (hb : ∀ d ∈ ds, ∀ v ∈ d.rhs.freeVars, T.lookup v ≠ none ∧ T'.lookup v ≠ none) {v : Var}
    {t t' : SomeTerm} (ht : T.lookup v = some t) (ht' : T'.lookup v = some t') :
    t.value n = t'.value n' := by
  have hσ : ∀ v, T.lookup v ≠ none ∧ T'.lookup v ≠ none → m.store U v = m'.store U' v := by
    rintro v ⟨hv, hv'⟩
    obtain ⟨t, ht⟩ := Option.ne_none_iff_exists'.mp hv
    obtain ⟨t', ht'⟩ := Option.ne_none_iff_exists'.mp hv'
    rw [Model.store_of_lookup (hU _ _ ht), Model.store_of_lookup (hU' _ _ ht')]
    exact hm v t t' ht ht'
  obtain ⟨τ, hτ, heq⟩ := ha.congr hb hσ
  cases hτ.unique hk ha'
  have hv := heq v ⟨ht ▸ Option.some_ne_none t, ht' ▸ Option.some_ne_none t'⟩
  rwa [Model.store_of_lookup (hU _ _ ht), Model.store_of_lookup (hU' _ _ ht')] at hv

/-- The definitions of both programs, executed in both worlds. -/
theorem Ran.match {entries : Prop} {w₁ w₁' : World} {ds ds' : List Def} {n n' : Model} (hr : Ran w₁ ds ds' m n)
    (hr' : Ran w₁' ds ds' m' n') (h : w.Match entries w' m m')
    (hv : ∀ side, Table.Grows (w.env side).vars (w₁.env side).vars)
    (hi : ∀ side, Table.Grows (w.env side).inits (w₁.env side).inits)
    (hv' : ∀ side, Table.Grows (w'.env side).vars (w₁'.env side).vars)
    (hi' : ∀ side, Table.Grows (w'.env side).inits (w₁'.env side).inits)
    (hk : ds.all (·.rhs.known)) (hk' : ds'.all (·.rhs.known))
    (hb : ∀ d ∈ ds, ∀ v ∈ d.rhs.freeVars,
      (w.env .orig).vars.lookup v ≠ none ∧ (w'.env .orig).vars.lookup v ≠ none)
    (hb' : ∀ d ∈ ds', ∀ v ∈ d.rhs.freeVars,
      (w.env .mod).vars.lookup v ≠ none ∧ (w'.env .mod).vars.lookup v ≠ none) : w.Match entries w' n n' where
  vars {v t t'} side ht ht' := by
    cases side with
    | orig =>
      exact assigns_match (hv .orig) (hv' .orig) (fun _ _ _ => h.vars .orig) hr.orig hr'.orig
        hk hb ht ht'
    | mod =>
      exact assigns_match (hv .mod) (hv' .mod) (fun _ _ _ => h.vars .mod) hr.mod hr'.mod
        hk' hb' ht ht'
  inits {v t t'} side he ht ht' := by
    have hstore := congrFun (hr.entry side) v
    have hstore' := congrFun (hr'.entry side) v
    rw [Model.store_of_lookup (hi side _ _ ht), Model.store_of_lookup (hi side _ _ ht)] at hstore
    rw [Model.store_of_lookup (hi' side _ _ ht'), Model.store_of_lookup (hi' side _ _ ht')] at hstore'
    rw [hstore, hstore']
    exact h.inits side he ht ht'

end Compare

namespace World

variable {w w' : World} {m m' : Model} {vars : List Var} {text : String} {P : Var → Prop}
  {entries : Prop}

theorem Match.equal_iff (h : w.Match entries w' m m') (hb : ∀ v ∈ vars, w.scene.Bound v)
    (hb' : ∀ v ∈ vars, w'.scene.Bound v) : w.scene.Equal vars m ↔ w'.scene.Equal vars m' := by
  refine forall₂_congr fun v hv => ?_
  have hside (side : Side) : m.store (w.env side).vars v = m'.store (w'.env side).vars v := by
    obtain ⟨t, ht⟩ := hb v hv side
    obtain ⟨t', ht'⟩ := hb' v hv side
    rw [Model.store_of_lookup (show (w.env side).vars.lookup v = some t from ht),
      Model.store_of_lookup (show (w'.env side).vars.lookup v = some t' from ht')]
    exact h.vars side ht ht'
  rw [show m.store (w.scene.env .orig).vars v = _ from hside .orig,
    show m.store (w.scene.env .mod).vars v = _ from hside .mod]
  rfl

/-- Worlds in which the same is asked for: variables can be told by their names, and registers and texts
are known to both. -/
theorem Match.asks_iff (h : w.Match entries w' m m') (hP : Telling P) (hw : w.Within P) (hw' : w'.Within P)
    (ho : w.Orderly) (ho' : w'.Orderly) (htext : entries ∨ Smt.Entryless text)
    (hb : ∀ v ∈ vars, w.scene.Bound v) (hb' : ∀ v ∈ vars, w'.scene.Bound v) (hr : Compare.isBlankText text = false → w.Reads text)
    (hr' : Compare.isBlankText text = false → w'.Reads text) :
    w.Asks vars text m ↔ w'.Asks vars text m' := by
  have htells : (Compare.isBlankText text = false → w.Tells text m) ↔
      (Compare.isBlankText text = false → w'.Tells text m') :=
    forall_congr' fun hblank => h.tells_iff hP hw hw' ho ho' htext (hr hblank) (hr' hblank)
  constructor
  · exact fun ha => ⟨(h.equal_iff hb hb').mp ha.equal, htells.mp ha.text⟩
  · exact fun ha => ⟨(h.equal_iff hb hb').mpr ha.equal, htells.mpr ha.text⟩

end World

end Precond
