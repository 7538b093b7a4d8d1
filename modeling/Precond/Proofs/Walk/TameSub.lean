import Precond.Proofs.Walk.Tame
import Precond.Proofs.Walk.Vocabulary

/-! The walk of a subroutine under safe policies is tame. A call replaces terms by terms of their
sorts, since every function has one signature; a copy of a block is settled from preconditions that
are there, since its forward successors have been settled and a block that control runs into has a
name. -/

namespace Precond

open IR Precond.Flow

/-! ### Architectures -/

/-- What calls take for granted of the conventions of an architecture. -/
structure IR.Arch.Regular (a : Arch) : Prop where
  positive : 0 < a.addrSize
  sp : a.sp.type = .word a.addrSize
  mem : a.mem.type = .memory a.addrSize 8
  cells : 8 ∣ a.addrSize
  returns : a.returnReg.isSome
  sorted : ∀ v ∈ Walk.conventional a, v.sorted
  saved : ∀ v ∈ a.callerSaved, v ∈ a.registers
  words : ∀ v ∈ a.registers, v.name ≠ a.mem.name → Exp.wordy v.type.sort?

theorem IR.Arch.regular : ∀ a ∈ Arch.all, a.Regular := by
  intro a ha
  simp only [Arch.all, List.mem_cons, List.not_mem_nil, or_false] at ha
  rcases ha with rfl | rfl | rfl
  all_goals exact ⟨by decide, by decide, by decide, by decide, by decide, by decide,
    by decide, by decide⟩

theorem IR.Arch.Regular.sp_sort {a : Arch} (h : a.Regular) : a.sp.type.sort = .ok (.bv a.addrSize) := by
  rw [h.sp, Ty.sort, if_pos (Int.natCast_pos.mpr h.positive), Int.toNat_natCast]

theorem IR.Arch.Regular.mem_sort {a : Arch} (h : a.Regular) :
    a.mem.type.sort = .ok (.mem a.addrSize 8) := by
  rw [h.mem, Ty.sort, if_pos ⟨h.positive, by decide⟩]

namespace Walk

namespace Tame

variable {P : Side → Env} {F : Fault → Prop} {side : Side} [hp : Policed P] [Bears F]

omit [Bears F] in
theorem regular (side : Side) : (P side).arch.Regular := Arch.regular _ (hp.safe side).arch

theorem conventional {v : Var} (hv : v ∈ Walk.conventional (P side).arch) :
    Tame P F (Env.OfType v.type) (Walk.on side (Env.mkVar v)) := mkVar ((regular side).sorted v hv)

/-- The stack pointer, and the one past the return address. -/
theorem poppedSp : Tame P F (fun r => r.1.1 = .bv (P side).arch.addrSize ∧
    r.2.1 = .bv (P side).arch.addrSize) (Walk.poppedSp side) := by
  have hsort := (regular (P := P) side).sp_sort
  refine env fun e he => ?_
  rw [he.arch]
  refine (conventional (v := (P side).arch.sp) (by simp [Walk.conventional])).bind fun sp hsp => ?_
  have hsp : sp.1 = .bv (P side).arch.addrSize := Except.ok.inj (hsp.symm.trans hsort)
  have hends : Ends (· = .bv (P side).arch.addrSize) (P side).arch.sp.type.sort := by
    rw [hsort]
    exact rfl
  refine (lift hends).bind fun s hs => ?_
  subst hs
  exact (lift (Term.as_ends hsp)).bind fun x _ => pure ⟨hsp, rfl⟩

/-- Terms are replaced by terms of their sorts. -/
abbrev Alike (pairs : List (SomeTerm × SomeTerm)) : Prop := ∀ p ∈ pairs, p.1.1 = p.2.1

theorem returnEffects (callee : Sub) : Tame P F Alike (Walk.returnEffects side callee) := by
  have hrest {popped : List (SomeTerm × SomeTerm)} (h : Alike popped) : Tame P F Alike (do
      let called ← Walk.on side (Env.getCalled callee.name)
      return popped ++ [(⟨_, called⟩, ⟨_, Term.truth true⟩)]) := by
    refine (on (.getCalled _)).bind fun called _ => pure fun p hp => ?_
    rcases List.mem_append.mp hp with hp | hp
    · exact h p hp
    · rw [List.mem_singleton.mp hp]
  refine env fun e _ => ite (fun _ => poppedSp.bind fun r hr => ?_) fun _ => hrest nofun
  exact hrest (List.forall_mem_singleton.mpr (hr.1.trans hr.2.symm))

/-! ### Calls -/

omit hp in
theorem formula (text : String) (decls : Smt.Decls) :
    Tame P F Constr.Formal (Walk.formula text decls) := by
  unfold Walk.formula
  split
  · exact throw True.intro
  · exact mkGoal ..
  · exact mkGoal ..

theorem firstArg : Tame P F (fun _ => True) (Walk.firstArg side) := by
  have hreg := regular (P := P) side
  refine env fun e he => ?_
  rw [he.arch]
  split
  · rename_i r _ hregs
    exact (conventional (by simp [Walk.conventional, hregs])).mono fun _ _ => True.intro
  · refine poppedSp.bind fun r hr => ?_
    refine (conventional (v := (P side).arch.mem) (by simp [Walk.conventional])).bind fun m hm => ?_
    have hm : m.1 = .mem (P side).arch.addrSize 8 := Except.ok.inj (hm.symm.trans hreg.mem_sort)
    have haddr : Term.Addresses m.1 r.2.1 := by
      intro a c w ha hw
      rw [hm] at ha
      rw [hr.2] at hw
      cases ha
      cases hw
      rfl
    exact lift ((Term.load_ends (Int.natCast_pos.mpr hreg.positive) haddr).mono fun _ _ => True.intro)

theorem applyTo_ends {r : TSort} {dom : List TSort} (f : Spine dom r) {args : List SomeTerm}
    (h : List.Forall₂ (fun s t => t.1 = s) dom args) : Ends (fun _ => True) (Spine.applyTo f args) := by
  induction h with
  | nil => exact True.intro
  | cons hx _ ih => exact (Term.as_ends hx).bind fun x _ => ih _

theorem apply_ends {f : FuncDecl} {args : List SomeTerm}
    (h : List.Forall₂ (fun s t => t.1 = s) f.dom args) : Ends (OfSort f.ran) (f.apply args) := by
  obtain ⟨name, dom, ran⟩ := f
  cases h with
  | nil => exact rfl
  | cons hx hxs => exact (applyTo_ends _ (.cons hx hxs)).bind fun _ _ => rfl

theorem mapM_sorts {vs : List Var} {sorts : List TSort}
    (h : List.Forall₂ (fun v s => v.type.sort = .ok s) vs sorts) :
    vs.mapM (·.type.sort) = .ok sorts := by
  induction h with
  | nil => rfl
  | cons hv _ ih =>
    rw [List.mapM_cons, hv, ih]
    rfl

theorem arguments_fit {vs : List Var} {sorts : List TSort} {args : List SomeTerm}
    (hs : List.Forall₂ (fun v s => v.type.sort = .ok s) vs sorts)
    (ha : List.Forall₂ (fun v t => Env.OfType v.type t) vs args) :
    List.Forall₂ (fun s t => t.1 = s) sorts args := by
  induction hs generalizing args with
  | nil =>
    cases ha
    exact .nil
  | cons hv _ ih =>
    obtain - | ⟨hx, hxs⟩ := ha
    exact .cons (Except.ok.inj (hx.symm.trans hv)) (ih hxs)

/-- A pair is added unless its old term is in a pair already. -/
theorem alike_added {pairs effects : List (SomeTerm × SomeTerm)} (hp : Alike pairs)
    (he : Alike effects) : Alike (effects.foldl (fun pairs p =>
      if pairs.any fun q => p.1.same q.1 then pairs else pairs ++ [p]) pairs) := by
  induction effects generalizing pairs with
  | nil => exact hp
  | cons p effects ih =>
    obtain ⟨hpair, heffects⟩ := List.forall_mem_cons.mp he
    refine ih ?_ heffects
    dsimp only
    split
    · exact hp
    · exact List.forall_mem_append.mpr ⟨hp, List.forall_mem_singleton.mpr hpair⟩

theorem summary {callee : Sub} {inputs outputs : List Var} {post : Constr}
    (hi : ∀ v ∈ inputs, v.sorted) (ho : ∀ v ∈ outputs, v.sorted)
    (hs : ∀ out ∈ outputs, ∀ dom ran, inputs.mapM (·.type.sort) = .ok dom → out.type.sort = .ok ran →
      (P side).Symbol ⟨(P side).canonical callee.name ++ "_" ++ out.name, dom, ran⟩)
    (hpost : post.Formal) : Tame P F Constr.Formal (Walk.summary side callee inputs outputs post) := by
  refine (mapM fun v hv => mkVar (hi v hv)).bind fun args hargs => ?_
  have hsort {v : Var} (hv : v.sorted) :
      Ends (fun s => v.type.sort = .ok s) v.type.sort := by
    obtain ⟨s, hs⟩ := Var.sorted_iff.mp hv
    rw [hs]
    exact rfl
  refine (mapM fun v hv => ofExcept (hsort (hi v hv))).bind fun sorts hsorts => env fun e he => ?_
  rw [he.canonical]
  have hdom := mapM_sorts hsorts
  have hfit := arguments_fit hsorts hargs
  refine (mapM_all (Q := fun p => p.1.1 = p.2.1) fun out hout => ?_).bind fun changed hchanged => ?_
  · refine (lift (hsort (ho out hout))).bind fun ran hran => ?_
    refine (on (.declare (hp.safe side) (hs out hout sorts ran hdom hran))).bind fun f hf => ?_
    refine (mkVar (ho out hout)).bind fun old hold => ?_
    subst hf
    refine (lift (apply_ends hfit)).bind fun new hnew => pure ?_
    exact (Except.ok.inj (hold.symm.trans hran)).trans hnew.symm
  · refine (returnEffects callee).bind fun effects heffects => ?_
    exact replaceAll hpost (alike_added hchanged heffects)

/-- The terms of a table belong to variables, in order, and are of their sorts. -/
abbrev Tabled (vs : List Var) (table : Table Var SomeTerm) : Prop :=
  List.Forall₂ (fun v p => p.1 = v ∧ Env.OfType v.type p.2) vs table

theorem tabled_mem {vs : List Var} {table : Table Var SomeTerm} (h : Tabled vs table)
    {p : Var × SomeTerm} (hp : p ∈ table) : p.1 ∈ vs ∧ Env.OfType p.1.type p.2 := by
  induction h with
  | nil => cases hp
  | cons hv _ ih =>
    rcases List.mem_cons.mp hp with rfl | hp
    · exact ⟨hv.1 ▸ List.mem_cons_self, hv.1 ▸ hv.2⟩
    · exact (ih hp).imp_left (List.mem_cons_of_mem _)

theorem tabled_lookup {vs : List Var} {table : Table Var SomeTerm} (h : Tabled vs table) {v : Var}
    (hv : v ∈ vs) : ∃ t, table.lookup v = some t ∧ Env.OfType v.type t := by
  have hkey : v ∈ table.map (·.1) := by
    have hmap : vs = table.map (·.1) := by
      rw [← List.forall₂_eq_eq_eq, List.forall₂_map_right_iff]
      exact h.imp fun _ _ hp => hp.1.symm
    exact hmap ▸ hv
  obtain ⟨t, ht⟩ := Option.isSome_iff_exists.mp (Table.mem_keys_iff.mp hkey)
  exact ⟨t, ht, (tabled_mem h (Table.mem_of_lookup ht)).2⟩

theorem contract {callee : Sub} {name pre post : String} {after : Constr} (ha : after.Formal) :
    Tame P F Constr.Formal (Walk.contract side callee name pre post after) := by
  have hreg := regular (P := P) side
  refine env fun e he => ?_
  rw [he.arch]
  have hcurrent : Tame P F (Tabled (P side).arch.registers) ((P side).arch.registers.mapM fun r => do
        return (r, ← Walk.on side (Env.mkVar r))) :=
    mapM fun r hr => (conventional (by simp [Walk.conventional, hr])).bind fun t ht => pure ⟨rfl, ht⟩
  have hchaos : Tame P F (Tabled (P side).arch.callerSaved) ((P side).arch.callerSaved.mapM fun r => do
        return (r, ← Walk.on side (Env.fresh (name ++ "_" ++ r.name) r.type))) :=
    mapM fun r hr => (on (.fresh (hreg.sorted r (by simp [Walk.conventional, hr])) _)).bind
      fun t ht => pure ⟨rfl, ht⟩
  refine hcurrent.bind fun current hcurrent => hchaos.bind fun chaos hchaos => ?_
  refine (formula ..).bind fun subPre hpre => (formula ..).bind fun subPost hpost => ?_
  -- each register that is changed has a term of its sort among the current ones
  have hold : ∀ p ∈ chaos, Tame P F (fun t => t.1 = p.2.1) (Walk.present (current.lookup p.1)) := by
    intro p hp
    obtain ⟨hmem, hnew⟩ := tabled_mem hchaos hp
    obtain ⟨t, ht, hold⟩ := tabled_lookup hcurrent (hreg.saved _ hmem)
    rw [ht]
    exact pure (Except.ok.inj (hold.symm.trans hnew))
  refine (mapM hold).bind fun olds holds => ?_
  have hpairs : List.Forall₂ (fun old new : SomeTerm => old.1 = new.1) olds (chaos.map (·.2)) := by
    rw [List.forall₂_map_right_iff]
    exact holds.flip
  refine (substitute ha hpairs).bind fun chaosed hchaosed => ?_
  refine (returnEffects callee).bind fun effects heffects => ?_
  refine (replaceAll hchaosed heffects).bind fun returned hreturned => ?_
  refine (mkClause (List.forall_mem_singleton.mpr hpost) (List.forall_mem_singleton.mpr hreturned)).bind
    fun inner hinner => ?_
  exact mkClause (List.forall_mem_nil _) (List.forall_mem_cons.mpr ⟨hpre, List.forall_mem_singleton.mpr hinner⟩)

theorem withIntents_sorted {callee : Sub} (h : ∀ a ∈ callee.args, a.var.sorted) (intents : List Intent) :
    ∀ v ∈ withIntents callee intents, v.sorted := by
  intro v hv
  obtain ⟨a, ha, rfl⟩ := List.mem_map.mp hv
  exact h a (List.mem_of_mem_filter ha)

theorem inputRegs_sorted : ∀ v ∈ (P side).inputRegs, v.sorted := by
  intro v hv
  refine (regular (P := P) side).sorted v ?_
  unfold Env.inputRegs at hv
  unfold Walk.conventional
  split at hv <;> simp [hv]

theorem summarize {rule : CallRule} {callee : Sub} {post : Constr}
    (ha : ∀ a ∈ callee.args, a.var.sorted)
    (hs : ∀ out f, (P side).Summarizes callee rule out f → (P side).Symbol f) (hpost : post.Formal)
    (tid : String) : Tame P F Constr.Formal (Walk.summarize side rule callee post tid) := by
  have hreg := regular (P := P) side
  have hsummary (ho : ∀ v ∈ ((P side).interface rule callee).2, v.sorted)
      (hi : ∀ v ∈ ((P side).interface rule callee).1, v.sorted) : Tame P F Constr.Formal
        (Walk.summary side callee ((P side).interface rule callee).1
          ((P side).interface rule callee).2 post) :=
    summary hi ho (fun out hout dom ran hdom hran => hs out _ ⟨hout, rfl, hdom, hran⟩) hpost
  have hreturns {ret : Var} (hret : ret ∈ (P side).arch.returnReg) : ret.sorted :=
    hreg.sorted ret (by simp [Walk.conventional, Option.mem_def.mp hret])
  refine env fun e he => ?_
  rw [he.arch]
  cases rule with
  | verifierError => exact mkGoal ..
  | verifierAssume =>
    refine firstArg.bind fun t _ => (lift Term.condition_ends).bind fun cond _ => ?_
    refine (mkGoal ..).bind fun assumption hassumption => ?_
    exact mkClause (List.forall_mem_singleton.mpr hassumption) (List.forall_mem_singleton.mpr hpost)
  | verifierNondet =>
    obtain ⟨ret, hret⟩ := Option.isSome_iff_exists.mp hreg.returns
    have hsorted := hreturns (Option.mem_def.mpr hret)
    simp only [hret]
    refine (on (.fresh hsorted _)).bind fun value hvalue => (mkVar hsorted).bind fun old hold => ?_
    exact substitute hpost (.cons (Except.ok.inj (hold.symm.trans hvalue)) .nil)
  | empty => exact (on (.getCalled _)).bind fun called _ => substitute hpost (.cons rfl .nil)
  | argTerms => exact hsummary (withIntents_sorted ha _) (withIntents_sorted ha _)
  | raxOut | chaosRax =>
    obtain ⟨ret, hret⟩ := Option.isSome_iff_exists.mp hreg.returns
    simp only [hret]
    refine env fun e he => ?_
    rw [he.inputRegs]
    simp only [Env.interface, hret, Option.toList_some, List.forall_mem_singleton] at hsummary
    exact hsummary (hreturns (Option.mem_def.mpr hret)) inputRegs_sorted
  | chaosCallerSaved =>
    refine env fun e he => ?_
    rw [he.inputRegs]
    have hsaved : ∀ v ∈ (P side).arch.callerSaved, v.sorted := fun v hv =>
      hreg.sorted v (by simp [Walk.conventional, hv])
    exact hsummary hsaved inputRegs_sorted
  | contract name pre post' => exact contract hpost
  | default | inline => exact (returnEffects callee).bind fun effects heffects => replaceAll hpost heffects

/-! ### Blocks -/

/-- What is translated is safe under the side rules, and variables that are written are of sorts. -/
structure Sound (p : Env) (e : Elt) : Prop where
  exps : ∀ x ∈ e.translated, x.safeUnder p.sideRules
  vars : ∀ v ∈ e.vars, v.sorted

omit hp in
theorem assign {post : Constr} {lhs : Var} {rhs : Exp} (hl : lhs.sorted)
    (hr : rhs.safeUnder (P side).sideRules) (hpost : post.Formal) :
    Tame P F Constr.Formal (Walk.assign side post lhs rhs) := by
  refine (translateChecked hr).bind fun r hr => (mkVar hl).bind fun old hold => ?_
  refine ite (fun _ => throw True.intro) fun hsort => ?_
  refine (guard _ _ hpost).bind fun c hc => ?_
  exact (substitute hc (.cons (not_not.mp hsort).symm .nil)).bind fun c hc => guard _ _ hc

omit hp in
theorem visitPhi {post : Constr} {p : Phi} (h : Sound (P side) (.phi p)) (hpost : post.Formal) :
    Tame P F Constr.Formal (Walk.visitPhi side post p) := by
  have hvalue {x : String × Exp} (hx : x ∈ p.values) : x.2.safeUnder (P side).sideRules :=
    h.exps _ (List.mem_map_of_mem hx)
  have hlhs : p.lhs.sorted := h.vars _ List.mem_cons_self
  refine env fun e he => ?_
  split
  · rename_i value hv
    obtain ⟨pred, -, hpred⟩ := Option.bind_eq_some_iff.mp hv
    exact assign hlhs (hvalue (List.mem_reverse.mp (Table.mem_of_lookup hpred))) hpost
  · exact (note ..).bind fun _ _ => assign hlhs (hvalue (List.head_mem _)) hpost

omit hp [Bears F] in
theorem targetPre (l : Label) {default : Constr} (h : default.Formal) :
    Tame P F Constr.Formal (Walk.targetPre side l default) := by
  cases l with
  | direct tid =>
    refine env fun e he => pure ?_
    cases ht : e.frame.targets.lookup tid with
    | some c => exact he.frame.targets ht
    | none => exact h
  | indirect => exact pure h

omit hp [Bears F] in
theorem returnPre {post : Constr} (h : post.Formal) :
    Tame P F Constr.Formal (Walk.returnPre side post) := by
  refine env fun e he => pure ?_
  cases hr : e.frame.retPost with
  | some c => exact he.frame.retPost hr
  | none => exact h

omit hp [Bears F] in
theorem inFrame {x : Walk α} {Q : α → Prop} (hx : Tame P F Q x) :
    Tame P F Q (Walk.inFrame side x) := by
  refine env fun e he => (modifyEnv fun e' he' => ?_).bind fun _ _ => restoring (fun e' he' => ?_) hx
  · refine he'.of_core rfl ⟨fun hk => ?_, nofun, fun hc => he.frame.retPost hc⟩
    dsimp only [Frame.nested] at hk
    rw [Std.HashMap.getElem?_empty] at hk
    cases hk
  · exact he'.of_core rfl he.frame

/-- Bodies of callees are expanded in a tame way. -/
def Expands (P : Side → Env) (F : Fault → Prop) (side : Side) (expand : Expand) : Prop :=
  ∀ post c, post.Formal → c ∈ (P side).subs → Tame P F Constr.Formal (expand side post c)

omit hp in
theorem callee_mem {tid : String} (h : ((P side).callee tid).blks ≠ []) :
    (P side).callee tid ∈ (P side).subs := by
  rw [Env.callee] at h ⊢
  cases hf : (P side).findSub? (.direct tid) with
  | some s => exact List.mem_of_find?_eq_some hf
  | none =>
    rw [hf] at h
    exact absurd rfl h

omit [Bears F] in
theorem sub_vars {s : Sub} (hs : s ∈ (P side).subs) : ∀ v ∈ s.vars, v.sorted := by
  have h := (hp.safe side).subs s hs
  rw [Sub.safeUnder, Bool.and_eq_true_iff, List.all_eq_true] at h
  exact h.1

theorem callee_args (tid : String) : ∀ a ∈ ((P side).callee tid).args, a.var.sorted := by
  intro a ha
  rw [Env.callee] at ha
  cases hf : (P side).findSub? (.direct tid) with
  | some s =>
    rw [hf] at ha
    have hmem : a.var ∈ s.args.map (·.var) := List.mem_map_of_mem ha
    exact sub_vars (List.mem_of_find?_eq_some hf) _ (List.mem_eraseDups.mpr
      (List.mem_append_left _ hmem))
  | none =>
    rw [hf] at ha
    cases ha

variable {expand : Expand} (hx : Expands P F side expand)
include hx

theorem inlineCall {after : Constr} (name : String) (h : after.Formal) (tid : String) :
    Tame P F Constr.Formal (Walk.inlineCall expand side ((P side).callee name) after tid) := by
  refine ite (fun _ => (note ..).bind fun _ _ => pure h) fun hblks => env fun e he => ?_
  refine ite (fun _ => (note ..).bind fun _ _ => env fun e he => ?_) fun _ => ?_
  · rw [show e.fallback = some .default by rw [← (hp.safe side).fallback, ← he.policy]; rfl]
    exact summarize (callee_args name) (fun _ _ hf => absurd hf.output List.not_mem_nil) h tid
  · have hmem : (P side).callee name ∈ (P side).subs := callee_mem fun hnil => hblks (by rw [hnil]; rfl)
    refine (modifyEnv fun e he => ?_).bind fun _ _ => restoring (fun e he => ?_) (inFrame (hx _ _ h hmem))
    · exact he.of_core rfl he.frame
    · exact he.of_core rfl he.frame

theorem visitCall {post : Constr} (h : post.Formal) (tid : String) (target : Label)
    (ret : Option Label) :
    Tame P F Constr.Formal (Walk.visitCall expand side post tid target ret) := by
  have hcalled {after : Constr} (ha : after.Formal) :
      Tame P F Constr.Formal (called expand side after tid target) := by
    cases target with
    | indirect => exact (note ..).bind fun _ _ => pure ha
    | direct name =>
      have hrule : Tame P F Constr.Formal (dispatch expand side after tid ((P side).callee name)) := by
        refine (on (.handler (hp.safe side) name)).bind fun h hh => ?_
        obtain ⟨name', hcallee, hrule⟩ := hh
        split
        · exact inlineCall hx name ha tid
        · refine summarize (hcallee ▸ callee_args name') (fun out f hf => ?_) ha tid
          exact ⟨name', _, out, hcallee ▸ hrule, hcallee ▸ hf⟩
      refine env fun e he => ?_
      rw [Env.callee, ← he.findSub?] at hrule
      cases hsub : e.findSub? (.direct name) with
      | some s =>
        rw [hsub] at hrule
        exact hrule
      | none =>
        rw [hsub] at hrule
        exact (note ..).bind fun _ _ => hrule
  cases ret with
  | none => exact (returnPre h).bind fun after ha => hcalled ha
  | some l => exact (targetPre l h).bind fun after ha => hcalled ha

theorem jumpPre {post : Constr} (h : post.Formal) (j : Jump) :
    Tame P F Constr.Formal (Walk.jumpPre expand side post j) := by
  unfold Walk.jumpPre
  split
  · exact (note ..).bind fun _ _ => pure h
  · exact targetPre _ h
  · exact visitCall hx h ..
  · exact returnPre h
  · exact targetPre _ h

theorem visitJump {post : Constr} {j : Jump} (hj : Sound (P side) (.jump j)) (h : post.Formal) :
    Tame P F Constr.Formal (Walk.visitJump expand side post j) := by
  have hcond : j.cond.safeUnder (P side).sideRules := hj.exps _ List.mem_cons_self
  refine env fun e he => ?_
  split
  · rename_i target taken _
    have hsafe : ∀ x ∈ j.cond.walk, x.safe := by
      intro x hx
      rw [Exp.safeUnder, List.all_eq_true] at hcond
      exact (Bool.and_eq_true_iff.mp (hcond x hx)).1
    refine (condition hsafe).bind fun cond _ => ite (fun _ => ?_) fun _ => ?_
    · refine (targetPre _ h).bind fun after ha => (mkGoal ..).bind fun goal hgoal => ?_
      exact mkClause (List.forall_mem_nil _) (List.forall_mem_cons.mpr ⟨hgoal, List.forall_mem_singleton.mpr ha⟩)
    · refine (mkGoal ..).bind fun goal hgoal => ?_
      exact mkClause (List.forall_mem_nil _) (List.forall_mem_cons.mpr ⟨hgoal, List.forall_mem_singleton.mpr h⟩)
  · refine (jumpPre hx h j).bind fun after ha => ite (fun _ => pure ha) fun _ => ?_
    refine (translateChecked hcond).bind fun r _ => (lift Term.condition_ends).bind fun cond _ => ?_
    exact (mkBranch _ cond ha h).bind fun pre hpre => guard _ _ hpre

theorem visitElts {post : Constr} {es : List Elt} (hes : ∀ e ∈ es, Sound (P side) e)
    (h : post.Formal) : Tame P F Constr.Formal (Walk.visitElts expand side post es) := by
  induction es with
  | nil => exact pure h
  | cons e es ih =>
    refine (ih fun e' he' => hes e' (List.mem_cons_of_mem e he')).bind fun pre hpre => ?_
    have he := hes e List.mem_cons_self
    cases e with
    | define d =>
      exact assign (he.vars _ List.mem_cons_self) (he.exps _ List.mem_cons_self) hpre
    | phi p => exact visitPhi he hpre
    | jump j => exact visitJump hx he hpre

end Tame

end Walk

end Precond
