import Precond.Proofs.Exact.Constants
import Precond.Proofs.Walk.TameEntry

/-! Faults of an analysis. Where the walk takes nothing for granted that does not hold, an analysis ends
in a report, or its input is refused as a fault of the configuration (`Analysis.run_contained`). What is
taken for granted is what no operation checks: that accesses go to addresses of the width of the memory
and that widths are positive, that blocks have names, and that functions of one name are of one
signature. Besides, the pattern of the subroutines to expand may have a fault that is not one of the
configuration. -/

namespace Precond

open IR Walk

theorem Ends.mapM {α β : Type} {P : β → Prop} {f : α → Except Fault β} {xs : List α}
    (h : ∀ x ∈ xs, Ends P (f x)) : Ends (fun ys => ∀ y ∈ ys, P y) (xs.mapM f) := by
  induction xs with
  | nil => exact fun _ => nofun
  | cons x xs ih =>
    rw [List.mapM_cons]
    refine (h x List.mem_cons_self).bind fun y hy => ?_
    refine (ih fun z hz => h z (List.mem_cons_of_mem x hz)).bind fun ys hys => ?_
    exact List.forall_mem_cons.mpr ⟨hy, hys⟩

/-! ### Functions that calls are summarized by -/

namespace Env

variable {e : Env} {f g : FuncDecl}

/-- Without declared arguments, what a callee is given and what it changes are registers of the
architecture. -/
theorem interface_registers {rule : CallRule} (callee : Sub) (h : rule ≠ .argTerms) :
    (∀ v ∈ (e.interface rule callee).2, e.arch.returnReg = some v ∨ v ∈ e.arch.callerSaved) ∧
      ((e.interface rule callee).2 = [] ∨ (e.interface rule callee).1 = e.inputRegs) := by
  cases rule with
  | argTerms => exact absurd rfl h
  | raxOut | chaosRax => exact ⟨fun v hv => .inl (Option.mem_toList.mp hv), .inr rfl⟩
  | chaosCallerSaved => exact ⟨fun v hv => .inr hv, .inr rfl⟩
  | inline | verifierError | verifierAssume | verifierNondet | empty | contract | default =>
    exact ⟨nofun, .inl rfl⟩

/-- The functions of conventional calls have one signature: from the words of the input registers to
words. -/
theorem symbols_of_conventional (ha : e.arch ∈ Arch.all) (hf : e.fallback = some .default)
    (hr : .argTerms ∉ e.rules) (h : e.Symbol f) (h' : e.Symbol g) (hname : f.name = g.name) : f = g := by
  have hplain {s : Sub} {rule : CallRule} (h : e.chosen? s = some rule) : rule ≠ .argTerms := by
    rcases Option.or_eq_some_iff.mp h with h | ⟨-, h⟩
    · exact fun hrule => hr (hrule ▸ List.mem_of_find?_eq_some h)
    · cases hf.symm.trans h
      nofun
  have hword : ∀ a ∈ Arch.all, ∀ v, a.returnReg = some v ∨ v ∈ a.callerSaved →
      v.type.sort = .ok (.bv a.addrSize) := by
    have hreturn : ∀ a ∈ Arch.all, ∀ v ∈ a.returnReg, v.type.sort = .ok (.bv a.addrSize) := by decide
    have hsaved : ∀ a ∈ Arch.all, ∀ v ∈ a.callerSaved, v.type.sort = .ok (.bv a.addrSize) := by decide
    exact fun a ha v hv => hv.elim (hreturn a ha v) (hsaved a ha v)
  have hsignature {f : FuncDecl} (h : e.Symbol f) :
      e.inputRegs.mapM (·.type.sort) = .ok f.dom ∧ f.ran = .bv e.arch.addrSize := by
    obtain ⟨tid, rule, out, hrule, hs⟩ := h
    obtain ⟨hout, hin⟩ := interface_registers (e := e) (e.callee tid) (hplain hrule)
    have hran := hs.ran.symm.trans (hword _ ha out (hout out hs.output))
    refine ⟨?_, Except.ok.inj hran⟩
    rcases hin with hin | hin
    · exact absurd hs.output (hin ▸ List.not_mem_nil)
    · exact hin ▸ hs.dom
  obtain ⟨hdom, hran⟩ := hsignature h
  obtain ⟨hdom', hran'⟩ := hsignature h'
  obtain ⟨name, dom, ran⟩ := f
  obtain ⟨name', dom', ran'⟩ := g
  cases hname
  cases hdom.symm.trans hdom'
  cases hran.trans hran'.symm
  rfl

/-- No function is asked for where there are no subroutines. -/
theorem start_safe {a : Arch} (ha : a ∈ Arch.all) : (Env.start a []).Safe where
  arch := ha
  fallback := rfl
  subs := nofun
  symbols h h' hname := symbols_of_conventional ha rfl (by simp [Env.start, CallRule.standard]) h h' hname

/-- Side rules have no say in how calls are summarized. -/
theorem Symbol.of_sideRules {rules : List SideRule}
    (h : ({ e with sideRules := rules } : Env).Symbol f) : e.Symbol f := by
  obtain ⟨tid, rule, out, hrule, hs⟩ := h
  exact ⟨tid, rule, out, hrule, hs.output, hs.name, hs.dom, hs.ran⟩

/-- An environment that nothing has been asked of fits its policy. -/
structure Untouched (e : Env) : Prop where
  vars : e.vars = []
  inits : e.inits = []
  funcs : e.funcs = []
  handlers : e.handlers = []
  frame : e.frame = .start

theorem Untouched.fits (h : e.Untouched) : e.Fits e.policy where
  policy := rfl
  vars hl := by rw [h.vars] at hl; cases hl
  inits hl := by rw [h.inits] at hl; cases hl
  funcs hl := by rw [h.funcs] at hl; cases hl
  handlers hl := by rw [h.handlers] at hl; cases hl
  frame := by
    rw [h.frame]
    exact ⟨fun hl => by simp [Frame.start] at hl, nofun, nofun⟩

end Env

/-- The policies of the environments. -/
def World.policies (w : World) (side : Side) : Env := (w.env side).policy

namespace Analysis

variable {o : Options} {p q : Program} {ps : List Program} {role : Role} {old : Table String String}

/-! ### Setting up -/

theorem findSub_ends (name : String) : Ends (· ∈ p.subs) (findSub p name) := by
  cases h : findSub p name with
  | ok s => exact findSub_mem h
  | error f =>
    unfold findSub at h
    cases hf : p.find? name with
    | none =>
      rw [hf] at h
      cases h
      exact True.intro
    | some s =>
      rw [hf] at h
      cases h

/-- The fault of the pattern of the subroutines to expand that is not one of the configuration. -/
def patternFault? (o : Options) : Option Fault :=
  match o.inline with
  | none | some "" => none
  | some text =>
    match Pattern.ofText text with
    | .ok _ => none
    | .error why => why.bare?

theorem patternFault?_eq_some {f : Fault} (h : patternFault? o = some f) :
    ∃ text why, o.inline = some text ∧ Pattern.ofText text = .error why ∧ why.bare? = some f := by
  unfold patternFault? at h
  split at h
  · cases h
  · cases h
  · rename_i text _ htext
    split at h
    · cases h
    · exact ⟨text, _, htext, ‹_›, h⟩

theorem inlined_ends (ho : patternFault? o = none) : Ends (fun _ => True) (inlined p o.inline) := by
  unfold patternFault? at ho
  split at ho
  · rename_i htext
    rw [htext]
    exact True.intro
  · rename_i htext
    rw [htext]
    exact True.intro
  · rename_i text hne htext
    rw [htext, inlined]
    · split at ho <;> rename_i hwhy <;> rw [hwhy]
      · exact True.intro
      · simp only [ho]
        exact True.intro
    · exact hne

theorem inlined_error {f : Fault} (ho : patternFault? o = some f) :
    inlined p o.inline = .error f := by
  obtain ⟨text, why, htext, hwhy, hf⟩ := patternFault?_eq_some ho
  have hempty : text ≠ "" := by
    rintro rfl
    rw [patternFault?, htext] at ho
    cases ho
  rw [htext, inlined, hwhy]
  · exact congrArg (fun g => Except.error (Option.getD g _)) hf
  · exact hempty

theorem rules_ends : Ends (fun _ => True) (rules o) := by
  have hname (name : String) : Ends (fun _ => True) (CallRule.ofName name) := by
    unfold CallRule.ofName
    split <;> exact True.intro
  unfold rules
  dsimp only
  split
  · exact True.intro
  · exact (Ends.mapM fun name _ => hname name).bind fun _ _ => True.intro

/-- The environment of a program before the walk. -/
structure Begins (p : Program) (o : Options) (role : Role) (e : Env) : Prop where
  arch : e.arch = p.arch
  subs : e.subs = p.subs
  fallback : e.fallback = some .default
  sideRules : e.sideRules = sideRules o role
  untouched : e.Untouched

theorem environment_begins {e : Env} (h : environment p o role old = .ok e) : Begins p o role e := by
  obtain ⟨_, -, h₁⟩ := bind_eq_ok h
  obtain ⟨_, -, h₂⟩ := bind_eq_ok h₁
  cases h₂
  exact ⟨rfl, rfl, rfl, rfl, rfl, rfl, rfl, rfl, rfl⟩

theorem environment_ends (ho : patternFault? o = none) :
    Ends (fun e => environment p o role old = .ok e) (environment p o role old) := by
  cases h : environment p o role old with
  | ok e => exact rfl
  | error f =>
    have hends : Ends (fun _ => True) (environment p o role old) :=
      (inlined_ends ho).bind fun _ _ => rules_ends.bind fun _ _ => True.intro
    exact hends.of_error h

theorem environment_error {f : Fault} (ho : patternFault? o = some f) :
    environment p o role old = .error f := by
  unfold environment
  dsimp only
  rw [inlined_error ho]
  rfl

/-! ### What is taken for granted -/

/-- The side rules of a program, with that of the first program for memory at another place. -/
def watching (p : Program) (o : Options) (role : Role) : List SideRule :=
  sideRules o role ++ (if role = .orig then (o.memOffset.map (.offsetRead p.arch.addrSize)).toList else [])

/-- What the walk of a program takes for granted. -/
structure Sound (p : Program) (o : Options) (role : Role) (old : Table String String) : Prop where
  arch : p.arch ∈ Arch.all
  subs : ∀ s ∈ p.subs, s.safeUnder (watching p o role)
  pointers : ∀ n ∈ o.pointerRegs, n ≠ p.arch.mem.name
  symbols {e : Env} {f g : FuncDecl} : environment p o role old = .ok e → e.Symbol f → e.Symbol g →
    f.name = g.name → f = g

/-- What an analysis takes for granted of its programs. -/
def SoundAll (o : Options) : List Program → Prop
  | [p] => Sound p o .single []
  | [p, q] => Sound p o .orig [] ∧ Sound q o .mod (renames o p q)
  | _ => True

/-- The named rules of an analysis are those that are asked for. -/
theorem rules_argTerms {rs : List CallRule} (hr : "arg_terms" ∉ o.rules) (h : rules o = .ok rs) :
    .argTerms ∉ rs := by
  have hgiven : .argTerms ∉ o.contracts.map (fun c => CallRule.contract c.name c.pre c.post) ++
      (if o.tripAsserts then [CallRule.verifierError] else []) := by
    rw [List.mem_append, not_or]
    refine ⟨fun hm => ?_, by split <;> simp⟩
    obtain ⟨c, -, hc⟩ := List.mem_map.mp hm
    cases hc
  have hall {named : List CallRule} (hnamed : .argTerms ∉ named) :
      .argTerms ∉ o.contracts.map (fun c => CallRule.contract c.name c.pre c.post) ++
        (if o.tripAsserts then [CallRule.verifierError] else []) ++ named :=
    fun hm => (List.mem_append.mp hm).elim hgiven hnamed
  have hname {name : String} (h : CallRule.ofName name = .ok .argTerms) : name = "arg_terms" := by
    unfold CallRule.ofName at h
    split at h
    · rename_i r hlook
      cases h
      have hmem := Table.mem_of_lookup hlook
      simpa [CallRule.named] using hmem
    · cases h
  unfold rules at h
  dsimp only at h
  split at h
  · cases h
    exact hall (by simp [CallRule.standard])
  · obtain ⟨named, hnamed, h₁⟩ := bind_eq_ok h
    cases h₁
    refine hall fun hm => ?_
    obtain ⟨n, hn, hof⟩ := mapM_mem_ok hnamed hm
    exact hr (hname hof ▸ hn)

/-- Functions are of one signature if callees are not summarized by their declared arguments. -/
theorem environment_symbols {e : Env} {f g : FuncDecl} (ha : p.arch ∈ Arch.all)
    (hr : "arg_terms" ∉ o.rules) (he : environment p o role old = .ok e) (h : e.Symbol f)
    (h' : e.Symbol g) (hname : f.name = g.name) : f = g := by
  have hb := environment_begins he
  refine Env.symbols_of_conventional (hb.arch ▸ ha) hb.fallback (fun hmem => ?_) h h' hname
  obtain ⟨tids, -, h₁⟩ := bind_eq_ok he
  obtain ⟨rs, hrs, h₂⟩ := bind_eq_ok h₁
  cases h₂
  rcases List.mem_cons.mp hmem with h | h
  · cases h
  · exact rules_argTerms hr hrs h

theorem Sound.safe {e : Env} (h : Sound p o role old) (he : environment p o role old = .ok e) :
    ({ e with sideRules := watching p o role } : Env).Safe := by
  have hb := environment_begins he
  exact {
    arch := hb.arch ▸ h.arch
    fallback := hb.fallback
    subs := fun s hs => h.subs s (hb.subs ▸ hs)
    symbols := fun hf hg hname => h.symbols he hf.of_sideRules hg.of_sideRules hname }

/-- Only the first program of a comparison has another side rule. -/
theorem Sound.safe_plain {e : Env} (h : Sound p o role old) (hr : role ≠ .orig)
    (he : environment p o role old = .ok e) : e.Safe := by
  have hsafe := h.safe he
  rwa [watching, if_neg hr, List.append_nil, ← (environment_begins he).sideRules] at hsafe

/-! ### Runs -/

/-- A run that gives a constraint with a formula, or a contained fault. -/
def Plan.Contained (run : Plan) : Prop :=
  Walk.Outcome (fun c _ => c.Formal) Fault.Contained run.walk run.start

/-- A walk that is tame under the policies of untouched environments. -/
theorem Plan.contained {run : Plan} (hs : ∀ side, (run.start.env side).Safe)
    (hu : ∀ side, (run.start.env side).Untouched)
    (hwalk : Policed run.start.policies → Yields run.start.policies run.walk) : run.Contained :=
  ((hwalk ⟨fun side => (hs side).policy⟩).outcome fun side => (hu side).fits).mono (fun _ _ h => h.2)
    fun _ => id

/-- The programs of a sound analysis are walked under safe policies. -/
theorem plan_contained (ho : patternFault? o = none) (h : SoundAll o ps) :
    Ends (fun run => run.Contained ∧ ∀ c, (run.done c).pre = c) (plan o ps) := by
  match ps with
  | [] => exact True.intro
  | [p] =>
    refine (findSub_ends _).bind fun s hs => (environment_ends ho).bind fun e he => ⟨?_, fun _ => rfl⟩
    have hb := environment_begins he
    refine Plan.contained (fun side => ?_) (fun side => ?_) fun hp => .single ?_ ?_
    · cases side with
      | orig => exact Sound.safe_plain h nofun he
      | mod => exact Env.start_safe h.arch
    · cases side with
      | orig => exact hb.untouched
      | mod => exact ⟨rfl, rfl, rfl, rfl, rfl⟩
    · exact hb.subs ▸ hs
    · exact hb.arch ▸ h.pointers
  | [p, q] =>
    obtain ⟨hp, hq⟩ := h
    refine (findSub_ends _).bind fun s hs => (findSub_ends _).bind fun t ht => ?_
    refine (environment_ends ho).bind fun e he => (environment_ends ho).bind fun e' he' =>
      ⟨?_, fun _ => rfl⟩
    have hb := environment_begins he
    have hb' := environment_begins he'
    refine Plan.contained (fun side => ?_) (fun side => ?_) fun hpol => ?_
    · cases side with
      | orig =>
        have hsafe := hp.safe he
        rw [watching, ← hb.sideRules] at hsafe
        cases hd : o.memOffset <;> rw [hd] at hsafe <;> exact hsafe
      | mod => exact hq.safe_plain nofun he'
    · cases side with
      | orig => exact ⟨hb.untouched.vars, hb.untouched.inits, hb.untouched.funcs, hb.untouched.handlers,
          hb.untouched.frame⟩
      | mod => exact hb'.untouched
    · refine .compared (hb.subs ▸ hs) (hb'.subs ▸ ht) fun side => ?_
      cases side with
      | orig => exact hb.arch ▸ hp.pointers
      | mod => exact hb'.arch ▸ hq.pointers
  | p :: q :: r :: ps => exact True.intro

theorem validate_ends (n : Nat) : Ends (fun _ => True) (ofConfig (o.validateFor n)) := by
  cases o.validateFor n <;> exact True.intro

theorem setup_contained (ho : patternFault? o = none) (h : SoundAll o ps) :
    Ends (fun r => r.1.pre.Formal) (setup o ps) := by
  rw [setup_eq_plan]
  refine (validate_ends _).bind fun _ _ => (plan_contained ho h).bind fun run ⟨hrun, hdone⟩ => ?_
  unfold build
  cases hwalk : run.walk run.start with
  | ok c w =>
    have hc : c.Formal := Outcome.of_ok hrun hwalk
    exact (congrArg Constr.Formal (hdone c)).mpr hc
  | error f w => exact Outcome.of_error hrun hwalk

/-! ### Reports -/

theorem check_reports (how : Search) (s : Setup) (w : World) (h : s.pre.Formal) :
    ∃ report, check how o s w = .ok report := by
  obtain ⟨t, ht⟩ := h.toFormula
  have hshown (r : Report) : ∃ report, reportShown s o r = .ok report := by
    unfold reportShown
    rw [ht]
    exact ⟨_, rfl⟩
  have hmodel (m : Model) (r : Report) : ∃ r', reportModel s w o m r = .ok r' := by
    obtain ⟨goals, hgoals⟩ := h.refuted m
    unfold reportModel
    rw [hgoals]
    exact ⟨_, rfl⟩
  obtain ⟨verdict, outcome, st, hsearch⟩ :
      ∃ verdict outcome st, Solver.check how s.pre true .start = .ok (verdict, outcome) st := by
    unfold Solver.check
    rw [ht]
    exact ⟨_, _, _, rfl⟩
  unfold check
  rw [hsearch]
  cases outcome with
  | unsat | unknown => exact hshown _
  | sat found =>
    obtain ⟨r, hr⟩ := hmodel found.model _
    obtain ⟨report, hreport⟩ := hshown r
    exact ⟨report, (congrArg (· >>= reportShown s o) hr).trans hreport⟩

/-- A pattern with a fault of its own is read before a walk begins. -/
theorem setup_error {f : Fault} (ho : patternFault? o = some f) :
    (∃ why, setup o ps = .error (.config why)) ∨ setup o ps = .error f := by
  have hfound {α : Type} (p : Program) {k : Sub → Except Fault α}
      (hk : ∀ s, (∃ why, k s = .error (.config why)) ∨ k s = .error f) :
      (∃ why, (findSub p o.func >>= k) = .error (.config why)) ∨ (findSub p o.func >>= k) = .error f := by
    cases hp : p.find? o.func with
    | none => exact .inl ⟨_, by rw [findSub, hp]; rfl⟩
    | some s =>
      rw [findSub, hp]
      exact hk s
  unfold setup
  cases o.validateFor ps.length with
  | error why => exact .inl ⟨why, rfl⟩
  | ok u =>
    match ps with
    | [] => exact .inl ⟨_, rfl⟩
    | [p] => exact hfound p fun s => .inr (by rw [environment_error ho]; rfl)
    | [p, q] => exact hfound p fun s => hfound q fun t => .inr (by rw [environment_error ho]; rfl)
    | p :: q :: r :: ps => exact .inl ⟨_, rfl⟩

theorem dividing_sound (role : Role) (old : Table String String) :
    Sound dividing (checking true) role old where
  arch := by decide
  subs := by cases role <;> decide
  pointers := nofun
  symbols := environment_symbols (by decide) (by decide)

end Analysis

end Precond
