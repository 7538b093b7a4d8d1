import Precond.Proofs.Flow.Order
import Precond.Proofs.Walk.Plain

/-! The calls that a walk meets. The rule for calls is chosen for a tid when the first call with this tid
is met, and where subroutines share a tid it is a matter of order which rule that is. The larger the
unroll bound is, the more copies of blocks are walked, in an order of their own. But the first copy of
each block comes in the order in which the search for back edges leaves the blocks, and calls that are
met again choose nothing. So walks with any bounds choose the same rules (`Walk.enterPlain_choices`). -/

namespace Precond

open IR Precond.Flow Walk

/-! ### Choices -/

/-- The rules that have been chosen for tids. -/
abbrev Choices := String → Option Handler

def Env.choices (e : Env) : Choices := fun t => e.handlers.lookup t

/-- The name that an element calls. -/
def IR.Elt.called? : Elt → Option String
  | .jump ⟨.call (.direct name) _, _, _⟩ => some name
  | _ => none

/-- The names that elements call, in the order of a backward walk. -/
def callsOf (es : List Elt) : List String := (es.filterMap Elt.called?).reverse

def Flow.Graph.callsAt (g : Graph) (t : String) : List String :=
  ((g.blocks.lookup t).map fun b => callsOf b.elts).getD []

/-- The rule for a callee: the one that has been chosen for its tid, or else the first that applies. -/
def Env.handler? (p : Env) (T : Choices) (c : Sub) : Option Handler :=
  (T c.tid).or ((p.chosen? c).map (⟨·, c⟩))

/-- The body of the callee is walked at the call, below callees with the tids `I`. -/
def Handler.Opens (h : Handler) (I : List String) (c : Sub) : Prop :=
  (∃ tids, h.rule = .inline tids) ∧ c.blks ≠ [] ∧ c.tid ∉ I

/-- The calls of the names are met one after the other, below callees with the tids `I`. Before,
the rules `T` have been chosen, and afterwards `T'`. The body of a callee has the calls that `calls`
tells. -/
inductive Env.Meets (p : Env) (calls : Sub → List String) :
    List String → List String → Choices → Choices → Prop
  | done : Meets p calls I [] T T
  | pass : p.handler? T (p.callee name) = some h → ¬ h.Opens I (p.callee name) →
    Meets p calls I ns (Function.update T (p.callee name).tid (some h)) T' →
    Meets p calls I (name :: ns) T T'
  | expand : p.handler? T (p.callee name) = some h → h.Opens I (p.callee name) →
    Meets p calls ((p.callee name).tid :: I) (calls (p.callee name))
      (Function.update T (p.callee name).tid (some h)) T₁ →
    Meets p calls I ns T₁ T' → Meets p calls I (name :: ns) T T'

/-- The second choices have been made after the first ones. -/
def Choices.Before (T T' : Choices) : Prop := ∀ t h, T t = some h → T' t = some h

theorem Choices.Before.trans {T₁ T₂ T₃ : Choices} (h : T₁.Before T₂) (h' : T₂.Before T₃) : T₁.Before T₃ :=
  fun t k hk => h' t k (h t k hk)

namespace Env

variable {p : Env} {calls : Sub → List String} {I as bs ns : List String} {T T₁ T₂ T' : Choices} {c : Sub}
  {h : Handler}

theorem handler?_before (hh : p.handler? T c = some h) : T.Before (Function.update T c.tid (some h)) := by
  intro t k hk
  by_cases ht : t = c.tid
  · subst ht
    rw [handler?, hk, Option.some_or] at hh
    rw [Function.update_self, hh]
  · rw [Function.update_of_ne ht, hk]

/-- Where the rule has been chosen, nothing is chosen. -/
theorem handler?_again (ht : T c.tid = some h) :
    p.handler? T c = some h ∧ Function.update T c.tid (some h) = T := by
  rw [handler?, ht, Option.some_or]
  exact ⟨rfl, by rw [← ht, Function.update_eq_self]⟩

theorem handler_choices {e e₁ : Env} (he : Env.handler c e = .ok h e₁) :
    e.policy.handler? e.choices c = some h ∧ e₁ = { e with handlers := e₁.handlers } ∧
      e₁.choices = Function.update e.choices c.tid (some h) := by
  cases hl : e.handlers.lookup c.tid with
  | some k =>
    cases (handler_of_lookup hl).symm.trans he
    obtain ⟨hh, hupdate⟩ := handler?_again (p := e.policy) (T := e.choices) hl
    exact ⟨hh, rfl, hupdate.symm⟩
  | none =>
    rw [handler_of_none hl] at he
    have hnew : e.policy.handler? e.choices c = (e.chosen? c).map (⟨·, c⟩) := by
      rw [handler?, choices, hl, Option.none_or]
      rfl
    cases hr : e.chosen? c with
    | none =>
      rw [hr] at he
      cases he
    | some r =>
      rw [hr] at he hnew
      cases he
      refine ⟨hnew, rfl, funext fun t => ?_⟩
      by_cases ht : t = c.tid
      · subst ht
        rw [Function.update_self]
        exact Table.lookup_put_self ..
      · rw [Function.update_of_ne ht]
        exact Table.lookup_put_of_ne _ _ ht

namespace Meets

theorem before (hm : p.Meets calls I ns T T') : T.Before T' := by
  induction hm with
  | done => exact fun _ _ => id
  | pass hh _ _ ih => exact (handler?_before hh).trans ih
  | expand hh _ _ _ ih₁ ih₂ => exact (handler?_before hh).trans (ih₁.trans ih₂)

/-- The calls determine which rules are chosen. -/
theorem unique (h₁ : p.Meets calls I ns T T₁) (h₂ : p.Meets calls I ns T T₂) : T₂ = T₁ := by
  induction h₁ generalizing T₂ with
  | done =>
    cases h₂
    rfl
  | pass hh hx _ ih =>
    cases h₂ with
    | pass hh' _ h₂ =>
      cases hh.symm.trans hh'
      exact ih h₂
    | expand hh' hx' =>
      cases hh.symm.trans hh'
      exact absurd hx' hx
  | expand hh hx _ _ ihbody ih =>
    cases h₂ with
    | pass hh' hx' =>
      cases hh.symm.trans hh'
      exact absurd hx hx'
    | expand hh' _ hbody h₂ =>
      cases hh.symm.trans hh'
      obtain rfl := ihbody hbody
      exact ih h₂

theorem append (ha : p.Meets calls I as T T₁) (hb : p.Meets calls I bs T₁ T') :
    p.Meets calls I (as ++ bs) T T' := by
  induction ha with
  | done => exact hb
  | pass hh hx _ ih => exact .pass hh hx (ih hb)
  | expand hh hx hbody _ _ ih => exact .expand hh hx hbody (ih hb)

theorem split (hm : p.Meets calls I (as ++ bs) T T') :
    ∃ T₁, p.Meets calls I as T T₁ ∧ p.Meets calls I bs T₁ T' := by
  induction as generalizing T with
  | nil => exact ⟨T, .done, hm⟩
  | cons a as ih =>
    cases hm with
    | pass hh hx hm =>
      obtain ⟨T₁, ha, hb⟩ := ih hm
      exact ⟨T₁, .pass hh hx ha, hb⟩
    | expand hh hx hbody hm =>
      obtain ⟨T₁, ha, hb⟩ := ih hm
      exact ⟨T₁, .expand hh hx hbody ha, hb⟩

/-- Calls that have been met choose nothing when they are met again. -/
theorem again (hm : p.Meets calls I ns T T₁) (hT : T₁.Before T') : p.Meets calls I ns T' T' := by
  have hold {T T₁ : Choices} {c : Sub} {h : Handler}
      (hT₁ : Choices.Before (Function.update T c.tid (some h)) T₁) : T₁ c.tid = some h := hT₁ _ _ (Function.update_self ..)
  induction hm with
  | done => exact .done
  | @pass I ns T name h T₁ _ hx hm ih =>
    obtain ⟨hh, hupdate⟩ := handler?_again (p := p) (hT _ _ (hold hm.before))
    exact .pass hh hx (by rw [hupdate]; exact ih hT)
  | @expand I ns T name h T₂ T₁ _ hx hbody hm ihbody ih =>
    have hbefore := hm.before.trans hT
    obtain ⟨hh, hupdate⟩ := handler?_again (p := p) (hbefore _ _ (hold hbody.before))
    exact .expand hh hx (by rw [hupdate]; exact ihbody hbefore) (ih hT)

end Meets

end Env

/-! ### Elements -/

namespace Walk

/-- The calls of the names are met on the way from one world to another. -/
structure Met (p : Env) (calls : Sub → List String) (side : Side) (F : Frame → Frame → Prop)
    (ns : List String) (w w₁ : World) : Prop where
  policy : (w₁.env side).policy = p
  inlining : (w₁.env side).inlining = (w.env side).inlining
  frame : F (w.env side).frame (w₁.env side).frame
  meets : p.Meets calls (w.env side).inlining ns (w.env side).choices (w₁.env side).choices

/-- Where the action succeeds, it meets the calls of the names. -/
structure Meeting (p : Env) (calls : Sub → List String) (side : Side) (F : Frame → Frame → Prop)
    (ns : List String) (x : Walk α) : Prop where
  run {w w₁ : World} {a : α} : (w.env side).policy = p → x w = .ok a w₁ → Met p calls side F ns w w₁

/-- No subroutine is walked that has blocks, and no rules are chosen but those of a world. -/
def callFree (w : World) : Scope where
  policy side := (w.env side).policy
  draws := True
  body _ s := s.blks = []
  rule side t r := ∃ h, (w.env side).handlers.lookup t = some h ∧ h.rule = r
  sideRules _ _ := .inl True.intro
  elts _ _ _ := .inl True.intro
  chosen hs hb := by
    rw [hs] at hb
    cases hb
  quiet _ _ _ _ _ := .inl True.intro
  expanded hs hb := by
    rw [hs] at hb
    cases hb

theorem callFree_under (w : World) : w.Under (callFree w) :=
  ⟨fun _ => rfl, fun ht => ⟨_, ht, rfl⟩⟩

/-- A subroutine without blocks, which stands for any that is walked. -/
theorem callFree_body (w : World) (side : Side) : (callFree w).body side (unknownCallee "") := rfl

variable {p : Env} {calls : Sub → List String} {side : Side} {F : Frame → Frame → Prop}
  {as bs ns : List String} {w w₁ w₂ : World}

/-- Rules stay as they have been chosen. -/
theorem choices_of_kept {e₁ : Env} (h : (w.env side).Kept ((callFree w).rule side) F e₁) :
    e₁.choices = (w.env side).choices := by
  funext t
  show e₁.handlers.lookup t = (w.env side).handlers.lookup t
  cases hl : e₁.handlers.lookup t with
  | none =>
    cases hl' : (w.env side).handlers.lookup t with
    | none => rfl
    | some k => exact nomatch hl.symm.trans (h.handlers t k hl')
  | some k =>
    rcases h.handlers_new hl with hk | ⟨k', hk, -⟩
    · exact hk.symm
    · exact (hl.symm.trans (h.handlers t k' hk)).symm ▸ hk.symm

namespace Met

theorem trans (h₁ : Met p calls side Eq as w w₁) (h₂ : Met p calls side Eq bs w₁ w₂) :
    Met p calls side Eq (as ++ bs) w w₂ where
  policy := h₂.policy
  inlining := h₂.inlining.trans h₁.inlining
  frame := h₁.frame.trans h₂.frame
  meets := h₁.meets.append (h₁.inlining ▸ h₂.meets)

end Met

namespace Meeting

variable {x : Walk α} {k : α → Walk β}

/-- No call is met by what stays where it is. -/
theorem rests (h : ∀ w, Keeps.Rests (callFree w) x) : Meeting p calls side Eq [] x where
  run {w w₁ a} hp ha := by
    have he := ((h w).of_ok (callFree_under w) ha).env side
    exact ⟨he.policy.trans hp, he.inlining, he.frame, by rw [choices_of_kept he]; exact .done⟩

theorem bind (hx : Meeting p calls side Eq as x) (hk : ∀ a, Meeting p calls side Eq bs (k a)) :
    Meeting p calls side Eq (as ++ bs) (x >>= k) where
  run hp hb := by
    obtain ⟨a, w₁, ha, hb⟩ := bind_ok hb
    have h₁ := hx.run hp ha
    exact h₁.trans ((hk a).run h₁.policy hb)

/-- Before calls are met, something is done that stays where it is. -/
theorem after (hx : ∀ w, Keeps.Rests (callFree w) x) (hk : ∀ a, Meeting p calls side Eq bs (k a)) :
    Meeting p calls side Eq bs (x >>= k) := (rests hx).bind hk

theorem env {k : Env → Walk β} (h : ∀ e, e.policy = p → Meeting p calls side Eq ns (k e)) :
    Meeting p calls side Eq ns (Walk.env side >>= k) where
  run hp hb := (h _ hp).run hp hb

variable {expand : Expand}
  (hx : ∀ post c, Meeting p calls side (fun _ _ => True) (calls c) (expand side post c))

include hx

/-- The body of a callee is walked in a frame of its own. -/
theorem nesting (post : Constr) (c : Sub) {a : Constr} (hp : (w.env side).policy = p)
    (h : Walk.nesting side c.tid (expand side post c) w = .ok a w₁) :
    (w₁.env side).policy = p ∧ (w₁.env side).inlining = (w.env side).inlining ∧
      (w₁.env side).frame = (w.env side).frame ∧
      p.Meets calls (c.tid :: (w.env side).inlining) (calls c) (w.env side).choices
        (w₁.env side).choices := by
  rw [nesting_eq] at h
  cases hrun : expand side post c (inside w side c.tid) with
  | error f w₂ =>
    rw [hrun] at h
    cases h
  | ok b w₂ =>
    rw [hrun] at h
    cases h
    have hmet := (hx post c).run (by rw [inside, World.env_setEnv]; exact hp) hrun
    have hinside : (inside w side c.tid).env side = { w.env side with
        inlining := c.tid :: (w.env side).inlining, frame := (w.env side).frame.nested } :=
      World.env_setEnv ..
    have hmeets := hmet.meets
    have hinlining := hmet.inlining
    rw [hinside] at hmeets hinlining
    rw [outside, World.env_setEnv]
    exact ⟨hmet.policy, congrArg (List.drop 1) hinlining, rfl, hmeets⟩

/-- The body of a callee is walked where the rule opens it. -/
theorem inlineCall (post : Constr) (tid : String) (c : Sub) {a : Constr} {h : Handler}
    (hh : ∃ tids, h.rule = .inline tids) (hp : (w.env side).policy = p)
    (ha : Walk.inlineCall expand side c post tid w = .ok a w₁) :
    (h.Opens (w.env side).inlining c ∧ (w₁.env side).policy = p ∧
      (w₁.env side).inlining = (w.env side).inlining ∧ (w₁.env side).frame = (w.env side).frame ∧
      p.Meets calls (c.tid :: (w.env side).inlining) (calls c) (w.env side).choices (w₁.env side).choices) ∨
    (¬ h.Opens (w.env side).inlining c ∧ Met p calls side Eq [] w w₁) := by
  unfold Walk.inlineCall at ha
  split at ha
  · rename_i hblks
    refine .inr ⟨fun ho => ho.2.1 (List.isEmpty_iff.mp hblks), ?_⟩
    exact (after (fun _ => .note ..) fun _ => rests fun _ => .pure _).run hp ha
  rename_i hblks
  change (if (w.env side).inlining.contains c.tid then _ else _ : Walk Constr) w = _ at ha
  split at ha
  · rename_i hin
    refine .inr ⟨fun ho => ho.2.2 (List.contains_iff_mem.mp hin), ?_⟩
    refine (after (fun _ => .note ..) fun _ => env fun e _ => ?_).run hp ha
    split
    · exact rests fun _ => .summarize (.inl True.intro) ..
    · exact rests fun _ => .throw _
  · rename_i hin
    refine .inl ⟨⟨hh, fun hb => hblks (by rw [hb]; rfl), fun hm => hin (List.contains_iff_mem.mpr hm)⟩, ?_⟩
    exact nesting hx post c hp ha

/-- A call is met. -/
theorem dispatch (post : Constr) (tid name : String) :
    Meeting p calls side Eq [name] (Walk.dispatch expand side post tid (p.callee name)) where
  run {w w₁ a} hp ha := by
    obtain ⟨⟨rule, callee⟩, w₂, hh, ha⟩ := bind_ok ha
    obtain ⟨e, he, rfl⟩ := on_ok hh
    obtain ⟨hhandler, heq, hchoices⟩ := Env.handler_choices he
    rw [hp] at hhandler
    have hp₂ : ((w.setEnv side e).env side).policy = p := by
      rw [World.env_setEnv, heq]
      exact hp
    have hinlining : ((w.setEnv side e).env side).inlining = (w.env side).inlining := by
      rw [World.env_setEnv, heq]
    have hframe : ((w.setEnv side e).env side).frame = (w.env side).frame := by rw [World.env_setEnv, heq]
    have hchoices₂ : ((w.setEnv side e).env side).choices =
        Function.update (w.env side).choices (p.callee name).tid (some ⟨rule, callee⟩) := by
      rwa [World.env_setEnv]
    -- where the body is not walked, no more calls are met
    have hpass (hx : ¬ Handler.Opens ⟨rule, callee⟩ (w.env side).inlining (p.callee name))
        (hm : Met p calls side Eq [] (w.setEnv side e) w₁) : Met p calls side Eq [name] w w₁ := by
      have hmeets := hm.meets
      rw [hinlining, hchoices₂] at hmeets
      exact ⟨hm.policy, hm.inlining.trans hinlining, hframe.symm.trans hm.frame, .pass hhandler hx hmeets⟩
    cases rule with
    | inline tids =>
      rcases inlineCall (h := ⟨.inline tids, callee⟩) hx post tid (p.callee name) ⟨tids, rfl⟩ hp₂ ha with
        ⟨hopens, hp₁, hi₁, hf₁, hbody⟩ | ⟨hopens, hm⟩
      · rw [hinlining] at hopens hbody
        rw [hchoices₂] at hbody
        exact ⟨hp₁, hi₁.trans hinlining, (hf₁.trans hframe).symm, .expand hhandler hopens hbody .done⟩
      · exact hpass (hinlining ▸ hopens) hm
    | _ =>
      refine hpass (fun ho => ?_) ((rests fun _ => .summarize (.inl True.intro) ..).run hp₂ ha)
      obtain ⟨tids, hr⟩ := ho.1
      cases hr

theorem called (post : Constr) (tid : String) (target : Label) (ret : Option Label) (j : Jump)
    (hk : j.kind = .call target ret) :
    Meeting p calls side Eq (Elt.called? (.jump j)).toList (Walk.called expand side post tid target) := by
  obtain ⟨_, cond, jtid⟩ := j
  cases hk
  cases target with
  | indirect => exact rests fun _ => (Keeps.note ..).bind fun _ => .pure _
  | direct name =>
    have hdispatch := dispatch hx post tid name
    refine env fun e he => ?_
    have hfind : p.findSub? (.direct name) = e.findSub? (.direct name) := by
      rw [← he]
      rfl
    rw [Env.callee, hfind] at hdispatch
    cases hsub : e.findSub? (.direct name) with
    | some s =>
      rw [hsub] at hdispatch
      exact hdispatch
    | none =>
      rw [hsub] at hdispatch
      exact after (fun _ => .note ..) fun _ => hdispatch

theorem jumpPre (post : Constr) (j : Jump) :
    Meeting p calls side Eq (Elt.called? (.jump j)).toList (Walk.jumpPre expand side post j) := by
  obtain ⟨kind, cond, tid⟩ := j
  cases kind with
  | goto target =>
    cases target with
    | direct t => exact rests fun _ => Keeps.targetPre (.direct t) post
    | indirect => exact rests fun _ => (Keeps.note ..).bind fun _ => .pure _
  | call target ret =>
    cases ret with
    | none => exact after (fun _ => .returnPre post) fun _ => called hx _ tid target none _ rfl
    | some l => exact after (fun _ => .targetPre l post) fun _ => called hx _ tid target (some l) _ rfl
  | ret target => exact rests fun _ => .returnPre post
  | interrupt number ret => exact rests fun _ => Keeps.targetPre (.direct ret) post

theorem visitElt (post : Constr) (e : Elt) :
    Meeting p calls side Eq e.called?.toList (Walk.visitElt expand side post e) := by
  have hbody (w : World) : (callFree w).body side (unknownCallee "") := callFree_body w side
  cases e with
  | define d => exact rests fun w => .assign (hbody w) (.inl True.intro) ..
  | phi p => exact rests fun w => .visitPhi (hbody w) (.inl True.intro) _
  | jump j =>
    refine env fun e _ => ?_
    split
    · -- only jumps within the subroutine are forced
      rename_i target taken hforced
      have hnone : Elt.called? (.jump j) = none := by
        obtain ⟨kind, cond, tid⟩ := j
        unfold forced? at hforced
        dsimp only at hforced
        split at hforced
        · rfl
        · cases hforced
      rw [hnone]
      exact rests fun _ => .forceJump (.inl True.intro) ..
    · have hbranched (after : Constr) : Meeting p calls side Eq [] (Walk.branched side after post j) :=
        rests fun w => .branched (hbody w) (.inl True.intro) ..
      have hjump := (jumpPre hx post j).bind hbranched
      rwa [List.append_nil] at hjump

/-- The elements of a block meet its calls, the last one first. -/
theorem visitElts (post : Constr) (es : List Elt) :
    Meeting p calls side Eq (callsOf es) (Walk.visitElts expand side post es) := by
  induction es with
  | nil => exact rests fun _ => .pure _
  | cons e es ih =>
    have hcalls : callsOf (e :: es) = callsOf es ++ e.called?.toList := by
      unfold callsOf
      rw [List.filterMap_cons]
      cases e.called? with
      | none => exact (List.append_nil _).symm
      | some name => exact List.reverse_cons
    rw [hcalls]
    exact ih.bind fun _ => visitElt hx _ e

end Meeting

/-! ### Copies of blocks -/

/-- A way through the blocks of a graph, in which the calls of each block are met for the first time in
order. The rules `before` have been chosen when it begins. -/
structure Tour where
  side : Side
  policy : Env
  calls : Sub → List String
  graph : Graph
  order : List String
  door : String → Nat
  inlining : List String
  before : Choices
  ordered : graph.Ordered order door

namespace Tour

/-- The calls of the first `k` blocks have been met. -/
structure At (C : Tour) (w : World) (k : Nat) : Prop where
  policy : (w.env C.side).policy = C.policy
  inlining : (w.env C.side).inlining = C.inlining
  graph : (w.env C.side).frame.graph = some C.graph
  le : k ≤ C.order.length
  meets : C.policy.Meets C.calls C.inlining ((C.order.take k).flatMap C.graph.callsAt) C.before
    (w.env C.side).choices

/-- From where the calls of `n` blocks have been met, the action goes on at least to where those of `m`
blocks have been. -/
structure Advances (C : Tour) (n m : Nat) (x : Walk α) : Prop where
  run {k : Nat} {w w₁ : World} {a : α} : n ≤ k → C.At w k → x w = .ok a w₁ →
    ∃ k', k ≤ k' ∧ m ≤ k' ∧ C.At w₁ k'

variable {C : Tour} {n m l : Nat} {x : Walk α} {k : α → Walk β} {settle : Settle} {post : Constr}
  {t : String} {u : Unroll} {w w₁ : World}

namespace Advances

theorem mono (h : C.Advances n m x) (hn : n ≤ l) : C.Advances l m x := ⟨fun hk => h.run (hn.trans hk)⟩

theorem weaken (h : C.Advances n m x) (hm : l ≤ m) : C.Advances n l x where
  run hk hw hx :=
    let ⟨k', hk', hmk, hw₁⟩ := h.run hk hw hx
    ⟨k', hk', hm.trans hmk, hw₁⟩

theorem bind (hx : C.Advances n m x) (hk : ∀ a, C.Advances (max n m) l (k a)) :
    C.Advances n l (x >>= k) where
  run hi hw hb := by
    obtain ⟨a, w₁, ha, hb⟩ := bind_ok hb
    obtain ⟨i', hi', hm, hw₁⟩ := hx.run hi hw ha
    obtain ⟨i'', hi'', hl, hw₂⟩ := (hk a).run (max_le (hi.trans hi') hm) hw₁ hb
    exact ⟨i'', hi'.trans hi'', hl, hw₂⟩

/-- What stays where it is. -/
theorem rests (h : ∀ w, Keeps.Rests (callFree w) x) (hm : m ≤ n) : C.Advances n m x := by
  refine ⟨fun {k w w₁ a} hk hw ha => ?_⟩
  have hmet : Met C.policy C.calls C.side Eq [] w w₁ := (Meeting.rests h).run hw.policy ha
  have he := ((h w).of_ok (callFree_under w) ha).env C.side
  refine ⟨k, Nat.le_refl k, hm.trans hk, hmet.policy, hmet.inlining.trans hw.inlining,
    hmet.frame ▸ hw.graph, hw.le, ?_⟩
  rw [choices_of_kept he]
  exact hw.meets

theorem env {k : Env → Walk α} (h : ∀ e, e.frame.graph = some C.graph → C.Advances n m (k e)) :
    C.Advances n m (Walk.env C.side >>= k) := ⟨fun hk hw ha => (h _ hw.graph).run hk hw ha⟩

/-- The forward successors of a block are settled in order. -/
theorem aheadPres {succs : List String} (h : Search.Through C.order C.door n succs m)
    (hset : ∀ t ∈ C.order, ∀ u, C.Advances (C.door t) (C.order.idxOf t + 1) (settle C.side post t u)) :
    C.Advances n m (Walk.aheadPres settle C.side C.graph post u succs) := by
  induction succs generalizing n with
  | nil => exact rests (fun _ => .pure _) h
  | cons t succs ih =>
    obtain ⟨ht, hdoor, hrest⟩ := h
    exact ((hset t ht _).mono hdoor).bind fun _ => (ih hrest).bind fun _ =>
      rests (fun _ => .pure _) (Nat.le_max_right ..)

/-- Behind back edges no block is come to that has not been entered. -/
theorem edgePres {ahead : Table String Constr} {succs : List String} (ht : t ∈ C.order)
    (hset : ∀ t ∈ C.order, ∀ u, C.Advances (C.door t) (C.order.idxOf t + 1) (settle C.side post t u)) :
    C.Advances (C.door t) 0 (Walk.edgePres settle C.side C.graph post t u ahead succs) := by
  induction succs with
  | nil => exact rests (fun _ => .pure _) (Nat.zero_le _)
  | cons s succs ih =>
    have hrest (c : Constr) : C.Advances (max (C.door t) 0) 0
        (do return (s, c) :: (← Walk.edgePres settle C.side C.graph post t u ahead succs)) :=
      (ih.mono (Nat.le_max_left ..)).bind fun _ => rests (fun _ => .pure _) (Nat.zero_le _)
    rw [Walk.edgePres]
    split
    · rename_i hback
      obtain ⟨hs, hdoor⟩ := C.ordered.back ht hback
      refine bind (env fun e _ => ?_) hrest
      dsimp only
      split
      · exact rests (fun _ => (Keeps.note ..).bind fun _ => .mkGoal ..) (Nat.zero_le _)
      · exact ((hset s hs _).mono hdoor).weaken (Nat.zero_le _)
    · exact bind (rests (fun _ => .present _) (Nat.zero_le _)) hrest

/-- A block whose forward successors have been come to. If its calls have been met before, no rule is
chosen. -/
theorem plainBlock {expand : Expand} {targets : Table String Constr} {after : Constr} (ht : t ∈ C.order)
    (hx : ∀ post c, Meeting C.policy C.calls C.side (fun _ _ => True) (C.calls c) (expand C.side post c)) :
    C.Advances (C.order.idxOf t) (C.order.idxOf t + 1)
      (Walk.plainBlock expand C.side C.graph targets t u after) := by
  refine ⟨fun {k w w₁ a} hk hw hrun => ?_⟩
  obtain ⟨b, w₂, hpresent, hplacing⟩ := bind_ok hrun
  obtain ⟨hb, rfl⟩ := present_ok hpresent
  obtain ⟨_, w₃, hplaced, hvisit⟩ := bind_ok hplacing
  obtain rfl := modifyEnv_ok hplaced
  have hcalls : C.graph.callsAt t = callsOf b.elts := by
    rw [Graph.callsAt, hb]
    rfl
  have hmet := (Meeting.visitElts hx after b.elts).run (by rw [World.env_setEnv]; exact hw.policy) hvisit
  have hmeets := hmet.meets
  have hinlining := hmet.inlining
  have hframe := hmet.frame
  rw [World.env_setEnv] at hmeets hinlining hframe
  have hmeets : C.policy.Meets C.calls C.inlining (C.graph.callsAt t) (w₂.env C.side).choices
      (w₁.env C.side).choices := by
    rw [← hw.inlining, hcalls]
    exact hmeets
  have hlt : C.order.idxOf t < C.order.length := List.idxOf_lt_length_of_mem ht
  have hgraph : (w₁.env C.side).frame.graph = some C.graph := by
    rw [← hframe]
    exact hw.graph
  rcases Nat.eq_or_lt_of_le hk with rfl | hk
  · refine ⟨_, Nat.le_succ _, Nat.le_refl _, hmet.policy, hinlining.trans hw.inlining, hgraph, hlt, ?_⟩
    rw [List.take_add_one, List.getElem?_idxOf ht, List.flatMap_append]
    exact hw.meets.append (by simpa using hmeets)
  · -- the calls of the block are among those that have been met
    have hmem : t ∈ C.order.take k := (List.mem_take_iff_idxOf_lt ht).mpr hk
    obtain ⟨as, bs, hsplit⟩ := List.append_of_mem hmem
    have hall := hw.meets
    rw [hsplit, List.flatMap_append, List.flatMap_cons] at hall
    obtain ⟨T₁, -, hall⟩ := hall.split
    obtain ⟨T₂, hown, hrest⟩ := hall.split
    have hsame := (hown.again hrest.before).unique hmeets
    refine ⟨k, Nat.le_refl k, hk, hmet.policy, hinlining.trans hw.inlining, hgraph, hw.le, ?_⟩
    rw [hsame]
    exact hw.meets

end Advances

end Tour

/-! ### Subroutines -/

/-- What is called in the bodies of subroutines, in the order in which the blocks are left. -/
def Called (calls : Sub → List String) : Prop :=
  ∀ s g, Graph.ofSub s = .ok g → ∃ order door, g.Ordered order door ∧ calls s = order.flatMap g.callsAt

theorem exists_called : ∃ calls, Called calls := by
  have h (s : Sub) : ∃ ns, ∀ g, Graph.ofSub s = .ok g →
      ∃ order door, g.Ordered order door ∧ ns = order.flatMap g.callsAt := by
    cases hg : Graph.ofSub s with
    | error f => exact ⟨[], nofun⟩
    | ok g =>
      obtain ⟨order, door, ho⟩ := Graph.exists_ordered hg
      refine ⟨order.flatMap g.callsAt, fun g' hg' => ?_⟩
      cases hg'
      exact ⟨order, door, ho, rfl⟩
  choose calls hcalls using h
  exact ⟨calls, hcalls⟩

/-- The walk of a subroutine meets the calls of its body, if settling copies of blocks does so. -/
theorem Meeting.enterPlain {settle : Settle} (hcalls : Called calls)
    (hset : ∀ C : Tour, C.calls = calls → ∀ post, ∀ t ∈ C.order, ∀ u,
      C.Advances (C.door t) (C.order.idxOf t + 1) (settle C.side post t u)) (post : Constr) (s : Sub) :
    Meeting p calls side (fun _ _ => True) (calls s) (Walk.enterPlain settle side post s) := by
  refine ⟨fun {w w₁ a} hp hrun => ?_⟩
  obtain ⟨_, w₂, hattached, hrun⟩ := bind_ok hrun
  obtain rfl := modifyEnv_ok hattached
  obtain ⟨g, w₃, hlift, hrun⟩ := bind_ok hrun
  obtain ⟨hg, rfl⟩ := ofExcept_ok hlift
  obtain ⟨_, w₄, hbind, hopening⟩ := bind_ok hrun
  have hbound : Met p calls side Eq [] _ w₄ :=
    (rests fun _ => Keeps.steady (Steady.bindVars s)).run (by rw [World.env_setEnv]; exact hp) hbind
  have hbinding := hbound.meets
  have hinlining := hbound.inlining
  rw [World.env_setEnv] at hbinding hinlining
  obtain ⟨order, door, ho, hs⟩ := hcalls s g hg
  let C : Tour := ⟨side, p, calls, g, order, door, (w.env side).inlining, (w₄.env side).choices, ho⟩
  have hentry : g.entry ∈ order := List.mem_of_getLast? ho.last
  have hopened : C.At (plainOpened w₄ side post g) 0 := by
    refine ⟨?_, ?_, ?_, Nat.zero_le _, ?_⟩
    all_goals dsimp only [C]; rw [plainOpened, World.env_setEnv]
    · exact hbound.policy
    · exact hinlining
    · exact .done
  rw [plainOpening_eq] at hopening
  cases hsettle : settle side post g.entry [] (plainOpened w₄ side post g) with
  | error f w₅ =>
    rw [hsettle] at hopening
    cases hopening
  | ok c w₅ =>
    rw [hsettle] at hopening
    cases hopening
    have hdoor : C.door g.entry ≤ 0 := ho.first.le
    obtain ⟨k, -, hk, hw₅⟩ := (hset C rfl post g.entry hentry []).run hdoor hopened hsettle
    -- the entry comes last, so that all blocks have been come to
    have hall : k = order.length := by
      refine Nat.le_antisymm hw₅.le ?_
      obtain ⟨front, hfront⟩ := List.getLast?_eq_some_iff.mp ho.last
      have hnew : g.entry ∉ front := by
        have hnodup := ho.nodup
        rw [hfront] at hnodup
        exact fun hm => (List.nodup_append.mp hnodup).2.2 _ hm _ (List.mem_singleton_self _) rfl
      have hidx : order.idxOf g.entry = front.length := by
        rw [hfront, List.idxOf_append_of_notMem hnew, List.idxOf_cons_self, Nat.add_zero]
      have hlength : order.length = front.length + 1 := by rw [hfront, List.length_append]; rfl
      have hk : order.idxOf g.entry + 1 ≤ k := hk
      omega
    have hmeets := hw₅.meets
    rw [hall] at hmeets
    have hmeets : p.Meets calls (w.env side).inlining (calls s) (w₄.env side).choices
        (w₅.env side).choices := by
      rw [hs, ← List.take_length (l := order)]
      exact hmeets
    refine ⟨?_, ?_, True.intro, ?_⟩
    all_goals rw [closed, World.env_setEnv]
    · exact hw₅.policy
    · exact hw₅.inlining
    · exact Env.Meets.append hbinding hmeets

/-- Settling a copy of a block settles its forward successors in order, and then meets the calls of the
block. -/
theorem plainNode_advances (hcalls : Called calls) (n : Nat) : ∀ C : Tour, C.calls = calls → ∀ post,
    ∀ t ∈ C.order, ∀ u, C.Advances (C.door t) (C.order.idxOf t + 1) (plainNode n C.side post t u) := by
  induction n with
  | zero => exact fun _ _ _ _ _ _ => ⟨fun _ _ h => nomatch h⟩
  | succ n ih =>
    intro C hC post t ht u
    have hx (post : Constr) (c : Sub) : Meeting C.policy C.calls C.side (fun _ _ => True) (C.calls c)
        (enterPlain (plainNode n) C.side post c) := .enterPlain (hC ▸ hcalls) (hC ▸ ih) post c
    refine ⟨fun {k w w₁ a} hk hw hrun => ?_⟩
    rw [plainNode_succ hw.graph] at hrun
    refine Tour.Advances.run (.bind (.aheadPres (C.ordered.turn ht) (ih C hC post)) fun _ => ?_) hk hw hrun
    refine .bind (m := 0) ?_ fun _ => ?_
    · exact (Tour.Advances.edgePres ht (ih C hC post)).mono (Nat.le_max_left ..)
    refine .bind (m := 0) (.rests (fun _ => Fills.trailing ..) (Nat.zero_le _)) fun _ => ?_
    refine (Tour.Advances.plainBlock ht hx).mono ?_
    omega

/-- The rules that the walk of a subroutine chooses do not depend on the unroll bound. -/
theorem enterPlain_choices {n n' : Nat} {w' w₁' : World} {s : Sub} {c d post post' : Constr}
    (hp : (w'.env side).policy = (w.env side).policy)
    (hi : (w'.env side).inlining = (w.env side).inlining)
    (hT : (w'.env side).choices = (w.env side).choices)
    (h : enterPlain (plainNode n) side post s w = .ok c w₁)
    (h' : enterPlain (plainNode n') side post' s w' = .ok d w₁') :
    (w₁'.env side).choices = (w₁.env side).choices := by
  obtain ⟨calls, hcalls⟩ := exists_called
  have hmeets := ((Meeting.enterPlain hcalls (plainNode_advances hcalls n) post s).run rfl h).meets
  have hmeets' := ((Meeting.enterPlain hcalls (plainNode_advances hcalls n') post' s).run hp h').meets
  rw [hi, hT] at hmeets'
  exact hmeets.unique hmeets'

end Walk

end Precond
