import Precond.Proofs.Exact.Reflexive
import Precond.Proofs.Walk.Making

/-! The constants that an analysis makes. The first program is asked for its own names only
(`Analysis.plan_makes`), so that in a comparison of programs none of whose names is in the name space of
the second one no constant of the second program has the name of another one
(`Analysis.plan_names_apart`). -/

namespace Precond

open IR Walk

/-! ### Beginnings of names -/

theorem CallRule.startsWith_iff {front name : String} :
    CallRule.startsWith front name = true ↔ front.toList <+: name.toList := by
  rw [CallRule.startsWith, beq_iff_eq, List.prefix_iff_eq_take, String.length_toList, eq_comm]

/-- What stands behind a separator is not part of a beginning without one. -/
theorem CallRule.startsWith_of_sep {front name back : String} (hsep : '_' ∉ front.toList)
    (h : CallRule.startsWith front (name ++ "_" ++ back) = true) :
    CallRule.startsWith front name = true := by
  rw [startsWith_iff] at h ⊢
  rw [String.toList_append, String.toList_append, List.append_assoc] at h
  by_cases hl : front.toList.length ≤ name.toList.length
  · exact List.prefix_of_prefix_length_le h (List.prefix_append ..) hl
  · have hcut : name.toList ++ ['_'] <+: front.toList := by
      refine List.prefix_of_prefix_length_le ?_ h ?_
      · exact (List.prefix_append_right_inj _).mpr (List.prefix_append ..)
      · rw [List.length_append, List.length_singleton]
        omega
    exact absurd (hcut.subset (List.mem_append_right _ List.mem_cons_self)) hsep

theorem mapM_mem_ok {α β : Type} {f : α → Except Fault β} {xs : List α} {ys : List β} {y : β}
    (h : xs.mapM f = .ok ys) (hy : y ∈ ys) : ∃ x ∈ xs, f x = .ok y := by
  induction xs generalizing ys with
  | nil =>
    cases h
    cases hy
  | cons x xs ih =>
    rw [List.mapM_cons] at h
    obtain ⟨z, hz, h₁⟩ := bind_eq_ok h
    obtain ⟨zs, hzs, h₂⟩ := bind_eq_ok h₁
    cases h₂
    rcases List.mem_cons.mp hy with rfl | hy
    · exact ⟨x, List.mem_cons_self, hz⟩
    · obtain ⟨x', hx', hy'⟩ := ih hzs hy
      exact ⟨x', List.mem_cons_of_mem x hx', hy'⟩

/-- All registers that conventions name are registers. -/
theorem IR.Arch.conventional_registers : ∀ a ∈ Arch.all, ∀ v ∈ conventional a, v ∈ a.registers := by
  decide +kernel

namespace Analysis

/-! ### The names of a program -/

/-- A subroutine of the program or one that it calls has the name. -/
def Mentions (p : Program) (name : String) : Prop :=
  ∃ s ∈ p.subs, s.name = name ∨ ∃ b ∈ s.blks, ∃ j ∈ b.jumps, ∃ tid ret,
    j.kind = .call (.direct tid) ret ∧ (unknownCallee tid).name = name

/-- The variable is a register or part of the program. -/
def Uses (p : Program) (v : Var) : Prop := v ∈ conventional p.arch ∨ ∃ s ∈ p.subs, v ∈ s.vars

/-- The names that an analysis of a program as it is may ask for. -/
def vocabulary (p : Program) (o : Options) : Vocabulary where
  var := Uses p
  callee := Mentions p
  numbered name := name = "unknown" ∨
    (∃ f, CallRule.startsWith CallRule.nondetFront f = true ∧ name = f ++ "_ret") ∨
    ∃ c ∈ o.contracts, ∃ v, Uses p v ∧ name = c.name ++ "_" ++ v.name
  result name ran := ∃ f v, Mentions p f ∧ Uses p v ∧ v.type.sort = .ok ran ∧ name = f ++ "_" ++ v.name

variable {p q : Program} {o : Options} {s : Sub}

theorem vocabulary_covers (hs : s ∈ p.subs) : (vocabulary p o).Covers s where
  name := ⟨s, hs, .inl rfl⟩
  vars _ hv := .inr ⟨s, hs, hv⟩
  blks b hb := {
    vars := fun _ hv => .inr ⟨s, hs, List.mem_eraseDups.mpr
      (List.mem_append_right _ (List.mem_flatMap.mpr ⟨b, hb, hv⟩))⟩
    calls := fun j hj tid ret hk => ⟨s, hs, .inr ⟨b, hb, j, hj, tid, ret, hk, rfl⟩⟩ }

theorem findSub_mem {name : String} (h : findSub p name = .ok s) : s ∈ p.subs := by
  unfold findSub at h
  cases hf : p.find? name with
  | none =>
    rw [hf] at h
    cases h
  | some s' =>
    rw [hf] at h
    cases h
    exact List.mem_of_find?_eq_some hf

/-- A rule that can be asked for by name is not a contract. -/
theorem ofName_plain {name : String} {rule : CallRule} (h : CallRule.ofName name = .ok rule) :
    ∀ n pre post, rule ≠ .contract n pre post := by
  unfold CallRule.ofName at h
  split at h
  · rename_i r hlook
    cases h
    rintro n pre post rfl
    have hmem := Table.mem_of_lookup hlook
    revert hmem
    simp [CallRule.named]
  · cases h

/-- The contracts among the rules of an analysis are those of the options. -/
theorem rules_contract {rs : List CallRule} {name pre post : String} (h : rules o = .ok rs)
    (hr : .contract name pre post ∈ rs) : ∃ c ∈ o.contracts, c.name = name := by
  have hcases {named : List CallRule} (hnamed : .contract name pre post ∉ named)
      (hr : .contract name pre post ∈ o.contracts.map (fun c => CallRule.contract c.name c.pre c.post) ++
        (if o.tripAsserts then [CallRule.verifierError] else []) ++ named) :
      ∃ c ∈ o.contracts, c.name = name := by
    rcases List.mem_append.mp ((List.mem_append.mp hr).resolve_right hnamed) with hr | hr
    · obtain ⟨c, hc, he⟩ := List.mem_map.mp hr
      cases he
      exact ⟨c, hc, rfl⟩
    · split at hr
      · cases List.mem_singleton.mp hr
      · cases hr
  unfold rules at h
  dsimp only at h
  split at h
  · cases h
    exact hcases (by simp [CallRule.standard]) hr
  · obtain ⟨named, hnamed, h₁⟩ := bind_eq_ok h
    cases h₁
    refine hcases (fun hmem => ?_) hr
    obtain ⟨n, -, hn⟩ := mapM_mem_ok hnamed hmem
    exact ofName_plain hn _ _ _ rfl

variable {role : Role} {e : Env}

theorem environment_serves {rule : CallRule} (hr : rule ∈ e.rules ∨ rule = .default)
    (h : environment p o role [] = .ok e) (ha : rule.applies p.arch s = true) :
    (vocabulary p o).Serves s.name rule := by
  obtain ⟨tids, -, h₁⟩ := bind_eq_ok h
  obtain ⟨rs, hrs, h₂⟩ := bind_eq_ok h₁
  cases h₂
  cases rule with
  | contract name pre post =>
    have hmem : CallRule.contract name pre post ∈ rs := by
      simpa using hr
    obtain ⟨c, hc, rfl⟩ := rules_contract hrs hmem
    exact fun v hv => .inr (.inr ⟨c, hc, v, hv, rfl⟩)
  | verifierNondet =>
    obtain ⟨hfront, -⟩ := Bool.and_eq_true_iff.mp ha
    exact .inr (.inl ⟨_, hfront, rfl⟩)
  | inline | verifierError | verifierAssume | empty | argTerms | raxOut | chaosRax
  | chaosCallerSaved | default => exact True.intro

/-- The environment of a program whose functions are not renamed is asked for names of the program. -/
theorem environment_governs (h : environment p o role [] = .ok e) : (vocabulary p o).Governs e := by
  have hserves {s : Sub} {rule : CallRule} (hr : rule ∈ e.rules ∨ rule = .default)
      (ha : rule.applies p.arch s = true) : (vocabulary p o).Serves s.name rule :=
    environment_serves hr h ha
  obtain ⟨tids, -, h₁⟩ := bind_eq_ok h
  obtain ⟨rs, -, h₂⟩ := bind_eq_ok h₁
  cases h₂
  exact {
    arch := fun v hv => .inl hv
    subs := fun s hs => vocabulary_covers hs
    chosen := fun {s rule} _ hr => by
      rcases Option.or_eq_some_iff.mp hr with hr | ⟨-, hr⟩
      · exact hserves (.inl (List.mem_of_find?_eq_some hr)) (List.find?_some hr)
      · cases hr
        exact True.intro
    fallback := fun _ hr => by
      cases hr
      exact True.intro
    handlers := nofun
    unknown := .inl rfl
    results := fun {f v ran} hf hv hsort => ⟨f, v, hf, hv, hsort, rfl⟩
    graph := nofun }

theorem environment_names {renames : Table String String}
    (h : environment p o role renames = .ok e) : e.freshen = decide (role = .mod) ∧
      e.names.space = if decide (role = .mod) then some modSpace else none := by
  obtain ⟨_, -, h₁⟩ := bind_eq_ok h
  obtain ⟨_, -, h₂⟩ := bind_eq_ok h₁
  cases h₂
  exact ⟨rfl, rfl⟩

/-! ### Runs -/

/-- What an analysis walks, and the world that it starts in. -/
structure Plan where
  walk : Walk Constr
  start : World
  done : Constr → Setup

/-- The walk of the analysis of a program or of the comparison of two. -/
def plan (o : Options) : List Program → Except Fault Plan
  | [p] => do
    let s ← findSub p o.func
    let e ← environment p o .single []
    return ⟨single o s, World.start e (Env.start p.arch []), (Setup.mk · s none)⟩
  | [p, q] => do
    let s ← findSub p o.func
    let t ← findSub q o.func
    let e ← environment p o .orig []
    let e' ← environment q o .mod (renames o p q)
    let offset := match o.memOffset with
      | some d => [SideRule.offsetRead p.arch.addrSize d]
      | none => []
    return ⟨do Compare.subs (← comparators o s t) s t,
      World.start { e with sideRules := e.sideRules ++ offset } e', (Setup.mk · s (some t))⟩
  | ps => throw (.config (.programCount ps.length))

theorem setup_eq_plan (o : Options) (ps : List Program) : setup o ps = (do
    ofConfig (o.validateFor ps.length)
    let run ← plan o ps
    build run.walk run.start run.done) := by
  unfold setup
  congr 1
  funext _
  match ps with
  | [] => rfl
  | [p] => simp only [plan, setupSingle, bind_assoc, pure_bind]
  | [p, q] =>
    cases hd : o.memOffset <;> simp only [plan, setupPair, bind_assoc, pure_bind, hd]
  | p :: q :: r :: ps => rfl

/-- The constants that a run makes in the environment of a side, also if it ends in a fault. -/
def Plan.Makes (run : Plan) (side : Side) (V : Vocabulary) (made : List Made) : Prop :=
  Env.Makes V (run.start.env side) made ((ending run.walk run.start).env side)

/-- All that is new in the tables of a side stands for constants that have been made. -/
def Plan.Records (run : Plan) (side : Side) (made : List Made) : Prop :=
  (run.start.env side).Records made ((ending run.walk run.start).env side)

/-- A run asks for names of the first program, and for any names of the second one. -/
theorem plan_makes {ps : List Program} {run : Plan} (h : plan o (p :: ps) = .ok run) :
    (∃ made, run.Makes .orig (vocabulary p o) made) ∧ ∃ made, run.Makes .mod .any made := by
  suffices hmake : ∀ side, Making (beside (vocabulary p o)) side (run.start.env side)
      ((ending run.walk run.start).env side) from ⟨(hmake .orig).makes, (hmake .mod).makes⟩
  match ps with
  | [] =>
    obtain ⟨s, hs, h₁⟩ := bind_eq_ok h
    obtain ⟨e, he, h₂⟩ := bind_eq_ok h₁
    cases h₂
    have hc := vocabulary_covers (o := o) (findSub_mem hs)
    exact (Confined.single hc).ends rfl (environment_governs he)
  | [q] =>
    obtain ⟨s, hs, h₁⟩ := bind_eq_ok h
    obtain ⟨t, ht, h₂⟩ := bind_eq_ok h₁
    obtain ⟨e, he, h₃⟩ := bind_eq_ok h₂
    obtain ⟨e', he', h₄⟩ := bind_eq_ok h₃
    cases h₄
    have hc := vocabulary_covers (o := o) (findSub_mem hs)
    have hg := environment_governs he
    exact (Confined.comparators hc fun cmps hcmps => Confined.subs hc hcmps).ends rfl
      (hg.of_eq rfl rfl rfl rfl rfl (fun _ _ => id) fun _ => hg.graph)
  | q :: r :: ps => cases h

/-- Names of the first program are used as they are. -/
theorem plan_orig_names {ps : List Program} {run : Plan} (h : plan o (p :: ps) = .ok run) :
    (run.start.env .orig).freshen = false ∧ (run.start.env .orig).names.space = none := by
  match ps with
  | [] =>
    obtain ⟨s, -, h₁⟩ := bind_eq_ok h
    obtain ⟨e, he, h₂⟩ := bind_eq_ok h₁
    cases h₂
    obtain ⟨hf, hs⟩ := environment_names he
    exact ⟨hf, hs⟩
  | [q] =>
    obtain ⟨s, -, h₁⟩ := bind_eq_ok h
    obtain ⟨t, -, h₂⟩ := bind_eq_ok h₁
    obtain ⟨e, he, h₃⟩ := bind_eq_ok h₂
    obtain ⟨e', -, h₄⟩ := bind_eq_ok h₃
    cases h₄
    obtain ⟨hf, hs⟩ := environment_names he
    exact ⟨hf, hs⟩
  | q :: r :: ps => cases h

/-- Names of the second program are numbered in its name space. -/
theorem plan_mod_names {run : Plan} (h : plan o [p, q] = .ok run) :
    (run.start.env .mod).freshen = true ∧ (run.start.env .mod).names.space = some modSpace := by
  obtain ⟨s, -, h₁⟩ := bind_eq_ok h
  obtain ⟨t, -, h₂⟩ := bind_eq_ok h₁
  obtain ⟨e, -, h₃⟩ := bind_eq_ok h₂
  obtain ⟨e', he', h₄⟩ := bind_eq_ok h₃
  cases h₄
  obtain ⟨hf, hs⟩ := environment_names he'
  exact ⟨hf, hs⟩

/-! ### Name spaces -/

/-- A name in the name space of the second program. -/
def Reserved (name : String) : Prop := CallRule.startsWith "mod." name = true

instance (name : String) : Decidable (Reserved name) := inferInstanceAs (Decidable (_ = _))

theorem not_reserved_sep {name back : String} (h : ¬ Reserved name) :
    ¬ Reserved (name ++ "_" ++ back) := fun hr => h (CallRule.startsWith_of_sep (by decide) hr)

/-- No name of the program is in the name space of the second one. -/
structure Unreserved (p : Program) (o : Options) : Prop where
  arch : p.arch ∈ Arch.all
  vars : ∀ s ∈ p.subs, ∀ v ∈ s.vars, ¬ Reserved v.name
  contracts : ∀ c ∈ o.contracts, ¬ Reserved c.name

namespace Unreserved

variable (h : Unreserved p o) {m : Made}
include h

theorem var {v : Var} (hv : Uses p v) : ¬ Reserved v.name := by
  rcases hv with hv | ⟨s, hs, hv⟩
  · have hreg := Arch.register_names _ h.arch v (Arch.conventional_registers _ h.arch v hv)
    exact fun hr => Bool.false_ne_true (hreg.2.1.symm.trans hr)
  · exact h.vars s hs v hv

theorem numbered {name : String} (hn : (vocabulary p o).numbered name) : ¬ Reserved name := by
  rcases hn with rfl | ⟨f, hf, rfl⟩ | ⟨c, hc, v, -, rfl⟩
  · decide
  · rw [show "_ret" = "_" ++ "ret" from rfl, ← String.append_assoc]
    intro hr
    have hmod : CallRule.startsWith "mod." f = true := CallRule.startsWith_of_sep (by decide) hr
    have hfront := List.prefix_of_prefix_length_le (CallRule.startsWith_iff.mp hmod)
      (CallRule.startsWith_iff.mp hf) (by decide)
    exact absurd hfront (by decide)
  · exact not_reserved_sep (h.contracts c hc)

/-- The constants of a program as it is are outside the name space. -/
theorem own {e e₁ : Env} (hf : e.freshen = false) (hs : e.names.space = none) (hn : e.Names e₁ m)
    (hw : m.Within (vocabulary p o)) (hm : m.purpose.own) : ¬ Reserved m.name := by
  obtain ⟨purpose, name, sort⟩ := m
  unfold Env.Names at hn
  rw [hf] at hn
  cases purpose with
  | var v =>
    cases hn
    exact h.var hw.1
  | entry v =>
    cases hn
    have hentry : ¬ Reserved ("init" ++ "_" ++ v.name) := not_reserved_sep (by decide)
    exact hentry
  | flag f =>
    cases hn
    have hflag : ¬ Reserved ("called" ++ "_" ++ f) := not_reserved_sep (by decide)
    exact hflag
  | fresh base =>
    obtain ⟨k, -, -, hname⟩ := hn
    simp only [NameSupply.numbered, NameSupply.fresh, hs] at hname
    exact hname ▸ not_reserved_sep (h.numbered hw.1)
  | result => cases hm

end Unreserved

/-- The constants of the second program are inside the name space. -/
theorem reserved_own {e e₁ : Env} {m : Made} (hf : e.freshen = true)
    (hs : e.names.space = some modSpace) (hn : e.Names e₁ m) (hm : m.purpose.own) :
    m.purpose.numbered e.freshen = true ∧ Reserved m.name := by
  have hnum : m.purpose.numbered e.freshen = true := by
    rw [hf]
    cases hp : m.purpose with
    | result => rw [hp] at hm; cases hm
    | var | entry | flag | fresh => rfl
  rw [Env.Names, if_pos hnum] at hn
  obtain ⟨k, -, -, hname⟩ := hn
  refine ⟨hnum, ?_⟩
  simp only [NameSupply.numbered, NameSupply.fresh, hs] at hname
  rw [hname]
  exact startsWith_append "mod." _

theorem dividing_unreserved (divisors : Bool) : Unreserved dividing (checking divisors) where
  arch := by decide
  vars := by decide
  contracts := nofun

end Analysis

end Precond
