import Precond.Proofs.Exact.Basic
import Precond.Proofs.Walk.Files
import Precond.Proofs.Walk.Replay
import Precond.Proofs.Walk.Success

/-! What frames keep makes no difference. On an environment in which subroutines have been walked before,
a subroutine whose walk draws no names gets the formula that the walk gives that keeps nothing
(`Walk.visitSub_plain`). -/

namespace Precond

open IR Precond.Flow Relation

/-- A jump of the subroutine calls the name. -/
def IR.Sub.CallsTo (s : Sub) (name : String) : Prop :=
  ∃ b ∈ s.blks, ∃ j ret, .jump j ∈ b.elts ∧ j.kind = .call (.direct name) ret

namespace Env

/-- The subroutines whose bodies may be walked when the body of `s` is. One rule is chosen for all callees
with the same tid. -/
inductive Expands (e : Env) (s : Sub) : Sub → Prop
  | self : Expands e s s
  | callee : Expands e s c → c.CallsTo name → Expands e s c' → c'.CallsTo name' →
    (e.callee name').tid = (e.callee name).tid → e.chosen? (e.callee name') = some (.inline tids) →
    Expands e s (e.callee name)

/-- The walk of a subroutine draws no names: nothing in it is unknown, and no call is of an arbitrary
value or has a contract. -/
structure Nameless (e : Env) (s : Sub) : Prop where
  elts : e.Expands s c → b ∈ c.blks → x ∈ b.elts → x.known
  calls : e.Expands s c → c.CallsTo name → e.chosen? (e.callee name) = some r → r.quiet
  fallback : e.Expands s c → c.CallsTo name → e.chosen? (e.callee name) = some (.inline tids) →
    e.fallback = some r → r.quiet
  sideRules : r ∈ e.sideRules → r.known

/-- A rule that a call may get in the walk of `s`: the one for a callee with the same tid. -/
def Offers (e : Env) (s : Sub) (t : String) (r : CallRule) : Prop :=
  ∃ c name, e.Expands s c ∧ c.CallsTo name ∧ (e.callee name).tid = t ∧ e.chosen? (e.callee name) = some r

/-- A rule that a call may get draws no names, and if bodies are walked under it, so is that of the
callee. -/
theorem Nameless.offered {e : Env} {s c : Sub} {name : String} {r : CallRule} (h : e.Nameless s)
    (hc : e.Expands s c) (hcall : c.CallsTo name)
    (hr : r = .default ∨ e.Offers s (e.callee name).tid r) : r.quiet ∧
      ∀ tids, r = .inline tids → e.Expands s (e.callee name) ∧ ∀ r, e.fallback = some r → r.quiet := by
  rcases hr with rfl | ⟨c', name', hc', hcall', htid, hr⟩
  · exact ⟨rfl, nofun⟩
  · refine ⟨h.calls hc' hcall' hr, fun tids htids => ?_⟩
    subst htids
    exact ⟨.callee hc hcall hc' hcall' htid hr, fun _ => h.fallback hc' hcall' hr⟩

/-- Nothing in the subroutine is unknown, and none of its jumps is a call. -/
def selfContained (s : Sub) : Bool :=
  s.blks.all fun b => b.elts.all fun x => x.known && match x with
    | .jump ⟨.call .., _, _⟩ => false
    | _ => true

theorem Nameless.of_selfContained {e : Env} {s : Sub} (hs : selfContained s)
    (hr : ∀ r ∈ e.sideRules, r.known) : e.Nameless s := by
  have helt {b : Blk} {x : Elt} (hb : b ∈ s.blks) (hx : x ∈ b.elts) :=
    Bool.and_eq_true_iff.mp (List.all_eq_true.mp (List.all_eq_true.mp hs b hb) x hx)
  have hcalls {name : String} : ¬ s.CallsTo name := by
    rintro ⟨b, hb, ⟨_, _, _⟩, ret, hj, hk⟩
    cases hk
    exact nomatch (helt hb hj).2
  have hself {c : Sub} (hc : e.Expands s c) : c = s := by
    induction hc with
    | self => rfl
    | callee _ hcall _ _ _ _ ih => exact (hcalls (ih ▸ hcall)).elim
  exact {
    elts := fun hc hb hx => (helt (hself hc ▸ hb) hx).1
    calls := fun hc hcall _ => (hcalls (hself hc ▸ hcall)).elim
    fallback := fun hc hcall _ _ => (hcalls (hself hc ▸ hcall)).elim
    sideRules := hr _ }

end Env

/-- A subroutine is walked that draws no names. The rules for calls are those that are offered in the
walk, and `.default` perhaps. -/
def Scope.nameless (policy : Side → Env) (side : Side) {s : Sub} (h : (policy side).Nameless s)
    (rule : Side → String → CallRule → Prop)
    (hchosen : ∀ {t r}, (policy side).Offers s t r → rule side t r)
    (hrule : ∀ {c name r}, (policy side).Expands s c → c.CallsTo name →
      rule side ((policy side).callee name).tid r →
      r = .default ∨ (policy side).Offers s ((policy side).callee name).tid r) : Scope where
  policy := policy
  draws := False
  body side' c := side' = side ∧ (policy side).Expands s c
  rule := rule
  sideRules := by
    rintro side' c r ⟨rfl, -⟩ hr
    exact .inr (h.sideRules hr)
  elts := by
    rintro side' c b x ⟨rfl, hc⟩ hb hx
    exact .inr (h.elts hc hb hx)
  chosen := by
    rintro side' c b name r j ret ⟨rfl, hc⟩ hb hj hk hr
    exact hchosen ⟨c, name, hc, ⟨b, hb, j, ret, hj, hk⟩, rfl, hr⟩
  quiet := by
    rintro side' c b name r j ret ⟨rfl, hc⟩ hb hj hk hr
    have hcall : c.CallsTo name := ⟨b, hb, j, ret, hj, hk⟩
    exact .inr (h.offered hc hcall (hrule hc hcall hr)).1
  expanded := by
    rintro side' c b name tids j ret ⟨rfl, hc⟩ hb hj hk hr _
    have hcall : c.CallsTo name := ⟨b, hb, j, ret, hj, hk⟩
    obtain ⟨hcallee, hfallback⟩ := (h.offered hc hcall (hrule hc hcall hr)).2 tids rfl
    exact ⟨⟨rfl, hcallee⟩, fun r hf => .inr (hfallback r hf)⟩

/-- Callees with the same tid are the same, if this is so for the subroutines of the program. -/
theorem Env.callee_ext {e : Env} (h : ∀ a ∈ e.subs, ∀ b ∈ e.subs, a.tid = b.tid → a = b) {m n : String}
    (htid : (e.callee m).tid = (e.callee n).tid) : e.callee m = e.callee n := by
  have hknown {m n : String} {a : Sub} (hm : e.findSub? (.direct m) = some a)
      (hn : e.findSub? (.direct n) = none) : a.tid ≠ n := by
    intro htid
    have := List.find?_eq_none.mp hn a (List.mem_of_find?_eq_some hm)
    simp [htid] at this
  unfold Env.callee at htid ⊢
  cases hm : e.findSub? (.direct m) with
  | some a =>
    cases hn : e.findSub? (.direct n) with
    | some b =>
      rw [hm, hn] at htid
      exact h a (List.mem_of_find?_eq_some hm) b (List.mem_of_find?_eq_some hn) htid
    | none =>
      rw [hm, hn] at htid
      exact absurd htid (hknown hm hn)
  | none =>
    cases hn : e.findSub? (.direct n) with
    | some b =>
      rw [hm, hn] at htid
      exact absurd htid.symm (hknown hn hm)
    | none =>
      rw [hm, hn] at htid
      exact congrArg Walk.unknownCallee (show m = n from htid)

/-- The world with nothing kept on a side. -/
def World.emptied (w : World) (side : Side) : World :=
  w.setEnv side { w.env side with frame := .start }

namespace Walk

/-- Worlds in which subroutines have been walked, while the policies have stayed as they are. The
constraints `K` are at hand there. -/
inductive Session (policy : Side → Env) (side : Side) (subs : Sub → Prop) :
    (Constr → Prop) → World → Prop
  /-- Nothing is kept in the beginning. -/
  | start : w.Under (.all policy) → (∀ t u, (w.env side).precond? t u = none) →
    Constr.Register K w.nodes → Session policy side subs K w
  /-- Between two walks, constraints are built, and tables grow. -/
  | meanwhile : Session policy side subs K w →
    w.Kept (Scope.all policy).rule (fun side' f f' => side' = side → f' = f) v →
    Constr.Register K₁ v.nodes → (∀ c, K c → K₁ c) → (∀ c, K₁ c → K c ∨ w.nodes ≤ c.id) →
    Session policy side subs K₁ v
  /-- A subroutine is walked, whether this succeeds or not. -/
  | visit : Session policy side subs K w → subs s → K post →
    Session policy side subs (fun c => K c ∨ ∃ d v, visitSub side post s w = .ok d v ∧ d.Part c)
      (ending (visitSub side post s) w)

/-- All that is kept is of a register, and can be trusted for each postcondition that is of it. -/
structure Reliable (S : Scope) (side : Side) (s : Sub) (K : Constr → Prop) (w : World) : Prop where
  under : w.Under S
  register : Constr.Register K w.nodes
  precond t u c : (w.env side).precond? t u = some c → K c
  rooted t u c r n : (w.env side).precond? t u = some c →
    (w.env side).frame.root = some (r, n) → n < w.nodes
  trusted (post : Constr) : K post → Trusted S side s post w

variable {policy : Side → Env} {S : Scope} {side : Side} {subs : Sub → Prop} {s s' : Sub}
  {K K₁ : Constr → Prop} {w w₁ v : World} {post c : Constr}

/-- What is built in the meantime is told apart from what is kept. -/
theorem register_union {n n₁ : Nat} {K₀ : Constr → Prop} (hK : Constr.Register K n)
    (hK₁ : Constr.Register K₁ n₁) (hn : n ≤ n₁) (h₀ : ∀ c, K₀ c → K c)
    (hnew : ∀ c, K₁ c → K₀ c ∨ n ≤ c.id) : Constr.Register (fun c => K c ∨ K₁ c) n₁ where
  children := by
    rintro c d (hc | hc) hd
    · exact .inl (hK.children hc hd)
    · exact .inr (hK₁.children hc hd)
  inj := by
    have hcross {c d : Constr} (hc : K c) (hd : K₁ d) (h : c.id = d.id) : c = d := by
      rcases hnew d hd with hd₀ | hd₀
      · exact hK.inj hc (h₀ d hd₀) h
      · exact absurd (hK.lt hc) (by omega)
    rintro c d (hc | hc) (hd | hd) h
    · exact hK.inj hc hd h
    · exact hcross hc hd h
    · exact (hcross hd hc h.symm).symm
    · exact hK₁.inj hc hd h
  lt := by
    rintro c (hc | hc)
    · exact (hK.lt hc).trans_le hn
    · exact hK₁.lt hc

namespace Reliable

theorem start (hw : w.Under S) (hkept : ∀ t u, (w.env side).precond? t u = none)
    (hK : Constr.Register K w.nodes) : Reliable S side s K w where
  under := hw
  register := hK
  precond t u _ hc := absurd ((hkept t u).symm.trans hc) nofun
  rooted t u _ _ _ hc _ := absurd ((hkept t u).symm.trans hc) nofun
  trusted _ _ _ _ _ t u _ hc := absurd ((hkept t u).symm.trans hc) nofun

/-- What is kept stays reliable while the frame is left as it is. -/
theorem meanwhile {F : Side → Frame → Frame → Prop} {K₀ : Constr → Prop} (h : Reliable S side s K w)
    (hv : w.Kept S.rule F v) (hf : (v.env side).frame = (w.env side).frame)
    (hK₁ : Constr.Register K₁ v.nodes) (h₀ : ∀ c, K₀ c → K c)
    (hnew : ∀ c, K₁ c → K₀ c ∨ w.nodes ≤ c.id) : Reliable S side s (fun c => K c ∨ K₁ c) v := by
  have hkept {t : String} {u : Unroll} {c : Constr} (hc : (v.env side).precond? t u = some c) :
      (w.env side).precond? t u = some c := by rwa [Env.precond?, hf] at hc
  refine ⟨hv.under h.under, register_union h.register hK₁ hv.nodes h₀ hnew,
    fun t u c hc => .inl (h.precond t u c (hkept hc)), fun t u c r n hc hr => ?_, fun post hpost => ?_⟩
  · exact (h.rooted t u c r n (hkept hc) (hf ▸ hr)).trans_le hv.nodes
  · have htrusted (hp : K post) : Trusted S side s post v :=
      (h.trusted post hp).onward hv.before (fun side' => (hv.env side').inlining) (hv.env side).unrollBound
        (by rw [hf]) (by rw [hf])
    rcases hpost with hp | hp
    · exact htrusted hp
    rcases hnew post hp with hp | hp
    · exact htrusted (h₀ post hp)
    · intro g hg hroot t u c hc
      exact absurd (h.rooted t u c s.tid post.id (hkept hc) (hf ▸ hroot)) (by omega)

/-- The walk of a subroutine leaves what is reliable, whether it succeeds or not. -/
theorem visit (h : Reliable S side s K w) (hS : ¬ S.draws) (hs : S.body side s)
    (hw : w.Under (.all policy)) (hpolicy : ∀ w : World, w.Under (.all policy) → w.Under S)
    (hsame : s'.tid = s.tid → s' = s) (hpost : K post) :
    ∃ K₁, (∀ c, K c → K₁ c) ∧ Reliable S side s K₁ (ending (visitSub side post s') w) ∧
      ∀ c v, visitSub side post s' w = .ok c v → K₁ c := by
  have hv : w.Kept (Scope.all policy).rule (At side fun _ _ => True)
      (ending (visitSub side post s') w) := (visitSub_kept True.intro).kept hw
  have hbody : (Scope.all policy).body side s' := True.intro
  rcases visitSub_root hbody hw with
    ⟨hearly, hfails⟩ | hroot
  · have hframe := (hearly.env side).frame.symm
    refine ⟨K, fun _ hc => hc, ⟨hpolicy _ (hv.under hw), h.register.mono hv.nodes, fun t u c hc => ?_,
      fun t u c r n hc hr => ?_, fun p hp => ?_⟩, fun c v hc => absurd hc (hfails c v)⟩
    · exact h.precond t u c (by rwa [Env.precond?, hframe] at hc)
    · rw [Env.precond?, hframe] at hc
      rw [hframe] at hr
      exact (h.rooted t u c r n hc hr).trans_le hv.nodes
    · exact (h.trusted p hp).onward hv.before (fun side' => (hv.env side').inlining)
        (hv.env side).unrollBound (by rw [hframe]) (by rw [hframe])
  · obtain ⟨K₁, hK₁, hreg, hkept, hresult⟩ :=
      visitSub_files hbody hw h.register hpost h.precond
    refine ⟨K₁, hK₁, ⟨hpolicy _ (hv.under hw), hreg, hkept, fun t u c r n _ hr => ?_, fun p hp => ?_⟩,
      hresult⟩
    · cases hroot.symm.trans hr
      exact hreg.lt (hK₁ post hpost)
    · intro g hg hr
      have hroots : (s'.tid, post.id) = (s.tid, p.id) := Option.some.inj (hroot.symm.trans hr)
      obtain ⟨htid, hid⟩ := Prod.mk.inj hroots
      obtain rfl : post = p := hreg.inj (hK₁ post hpost) hp hid
      obtain rfl : s' = s := hsame htid
      exact visitSub_trusted hS hs h.under (h.trusted post hpost) g hg hr

end Reliable

/-- What walks have kept before is reliable. -/
theorem Session.reliable (h : Session policy side subs K w) (hS : ¬ S.draws) (hs : S.body side s)
    (hpolicy : S.policy = policy) (hrule : S.rule = (Scope.all policy).rule)
    (hsubs : subs s) (hsame : ∀ a b, subs a → subs b → a.tid = b.tid → a = b) :
    w.Under (.all policy) ∧ ∃ K₁, (∀ c, K c → K₁ c) ∧ Reliable S side s K₁ w := by
  have hunder (w : World) (hw : w.Under (.all policy)) : w.Under S :=
    ⟨fun side => (hw.policy side).trans (by rw [hpolicy]; rfl), fun ht => hrule ▸ hw.handlers ht⟩
  induction h with
  | start hw hkept hK => exact ⟨hw, _, fun _ hc => hc, .start (hunder _ hw) hkept hK⟩
  | meanwhile _ hv hK₁ _ hnew ih =>
    obtain ⟨hw, K₂, hK₂, hr⟩ := ih
    refine ⟨hv.under hw, _, fun _ hc => .inr hc, hr.meanwhile (hrule ▸ hv) ?_ hK₁ hK₂ hnew⟩
    exact (hv.env side).frame rfl
  | visit _ hs' hpost ih =>
    obtain ⟨hw, K₂, hK₂, hr⟩ := ih
    obtain ⟨K₃, hK₃, hr₃, hresult⟩ := hr.visit hS hs hw hunder
      (fun htid => hsame _ _ hs' hsubs htid) (hK₂ _ hpost)
    refine ⟨(visitSub_kept (S := .all policy) True.intro).kept hw |>.under hw, K₃, ?_, hr₃⟩
    rintro c (hc | ⟨d, v, hd, hpart⟩)
    · exact hK₃ c (hK₂ c hc)
    · exact hr₃.register.toNumbered.part (hresult d v hd) hpart

/-- What has been kept makes no difference. After any walks of subroutines, the walk of one that draws
no names gets the formula that the walk gives that keeps nothing. -/
theorem visitSub_plain (h : Session policy side subs K w) (hnames : (policy side).Nameless s)
    (hs : subs s) (hprogram : ∀ a ∈ (policy side).subs, subs a)
    (hsame : ∀ a b, subs a → subs b → a.tid = b.tid → a = b) (hpost : K post)
    (hc : visitSub side post s w = .ok c w₁) :
    ∃ d v, Eventually (fun n => enterPlain (plainNode n) side post s) (w.emptied side) d v ∧
      c.toFormula = d.plain := by
  -- the rule for a tid is the one for the only callee that has it
  let S := Scope.nameless policy side hnames (fun side => (policy side).ruleOf)
    (fun ⟨_, name, _, _, htid, hr⟩ => ⟨name, htid, hr⟩) fun hc hcall ⟨_, htid, hr⟩ => by
      rw [Env.callee_ext (fun a ha b hb => hsame a b (hprogram a ha) (hprogram b hb)) htid] at hr
      exact .inr ⟨_, _, hc, hcall, rfl, hr⟩
  have hbody : S.body side s := ⟨rfl, .self⟩
  obtain ⟨-, K₁, hK₁, hr⟩ := h.reliable (S := S) id hbody rfl rfl hs hsame
  have hl : (Twin.same S side (w.env side).unrollBound).Linked none Any w (w.emptied side) :=
    (linked_self hr.under rfl).moved (.refl w) (World.same_setEnv rfl) rfl (fun side' => ?_) rfl ?_
  · obtain ⟨d, v, hd, hplain, -⟩ := visitSub_joined id hbody hl rfl (hr.trusted post (hK₁ post hpost)) hc
    obtain ⟨K₂, -, hreg, -, hresult⟩ := visitSub_files hbody hr.under hr.register (hK₁ post hpost) hr.precond
    exact ⟨d, v, hd, (hreg.toNumbered.toFormula_eq (hresult c w₁ hc)).trans hplain.symm⟩
  · by_cases hside : side' = side
    · rw [hside, World.emptied, World.env_setEnv]
    · rw [World.emptied, World.env_setEnv_of_ne _ _ _ hside]
  · rw [Twin.same_side, World.emptied, World.env_setEnv]

/-! ### A subroutine that is walked twice -/

/-- A register is copiedOnce. -/
def copying : Sub where
  name := "copying"
  tid := "@copying"
  addr := none
  args := []
  blks := [{
    tid := "%only"
    phis := []
    defs := [⟨⟨"R0", .word 32⟩, .var ⟨"R1", .word 32⟩, "%set"⟩]
    jumps := [⟨.ret (.direct "%exit"), .always, "%ret"⟩] }]

def uncopied : World := ⟨Env.start .arm [copying], Env.start .arm [], 1, 0⟩

/-- The register is zero. -/
def cleared : Constr := .goal 0 "cleared" (.eq (.const "R0" (.bv 32)) (.numeral 32 0)) none

def copyingPre : Constr :=
  .subst 1 cleared [(⟨_, .const "R0" (.bv 32)⟩, ⟨_, .const "R1" (.bv 32)⟩)]

/-- The precondition has been kept. -/
def copiedOnce : World where
  orig := { Env.start .arm [copying] with
    vars := [(⟨"R0", .word 32⟩, ⟨_, .const "R0" (.bv 32)⟩), (⟨"R1", .word 32⟩, ⟨_, .const "R1" (.bv 32)⟩)]
    attached := true
    frame := { Frame.start with
      preconds := ({} : Std.HashMap (String × Unroll) Constr).insert ("%only", []) copyingPre
      root := some ("@copying", 0)
      block := some "%only" } }
  mod := Env.start .arm []
  nodes := 2
  translations := 1

theorem copying_vars : sortByName copying.vars = [⟨"R0", .word 32⟩, ⟨"R1", .word 32⟩] := by
  rw [show copying.vars = [⟨"R0", .word 32⟩, ⟨"R1", .word 32⟩] by decide]
  exact List.mergeSort_of_pairwise (by decide)

theorem copying_visited : visitSub .orig cleared copying uncopied = .ok copyingPre copiedOnce := by
  suffices h : Succeeds (visitSub .orig cleared copying) uncopied fun c w => c = copyingPre ∧ w = copiedOnce by
    obtain ⟨c, w, h, rfl, rfl⟩ := h
    exact h
  refine .step rfl (.enter (Graph.ofSub_lone rfl rfl) copying_vars ?_)
  refine .step rfl (.step rfl (.step rfl (.step rfl (.restoring ?_))))
  refine .settle rfl (precond?_empty rfl ..) (.step rfl (.step rfl ?_))
  refine .step rfl (.step rfl (.step rfl (.block (precond?_empty rfl ..) (.now rfl ?_))))
  exact ⟨rfl, rfl⟩

/-- The second walk gives what the first one has kept. -/
theorem copying_again : Succeeds (visitSub .orig cleared copying) copiedOnce fun c _ => c = copyingPre := by
  refine .step rfl (.enter (Graph.ofSub_lone rfl rfl) copying_vars ?_)
  refine .step rfl (.step rfl (.step rfl (.step rfl (.restoring ?_))))
  refine .settled rfl ?_ rfl
  rw [precond?_insert rfl]
  exact if_pos rfl

/-- It has been walked once. -/
theorem copying_session : Session (fun side => (uncopied.env side).policy) .orig (· = copying)
    (fun c => c = cleared ∨ ∃ d v, visitSub .orig cleared copying uncopied = .ok d v ∧ d.Part c) copiedOnce := by
  have hstart : Session (fun side => (uncopied.env side).policy) .orig (· = copying) (· = cleared) uncopied := by
    refine .start ⟨fun _ => rfl, fun {side _ _} h => by cases side <;> cases h⟩
      (fun _ _ => precond?_empty rfl ..) ⟨⟨?_, ?_⟩, ?_⟩
    · rintro _ _ rfl hd
      exact absurd hd List.not_mem_nil
    · rintro _ _ rfl rfl _
      rfl
    · rintro _ rfl
      decide
  exact ending_of_ok copying_visited ▸ .visit hstart rfl rfl

theorem visitSub_plain_copying : ∃ w d v, visitSub .orig cleared copying copiedOnce = .ok copyingPre w ∧
    Eventually (fun n => enterPlain (plainNode n) .orig cleared copying) (copiedOnce.emptied .orig) d v ∧
    copyingPre.toFormula = d.plain := by
  obtain ⟨_, w, h, rfl⟩ := copying_again
  obtain ⟨d, v, hd, hplain⟩ := visitSub_plain copying_session
    (.of_selfContained (by decide) nofun) rfl
    (fun a ha => List.mem_singleton.mp ha) (fun a b ha hb _ => ha.trans hb.symm) (.inl rfl) h
  exact ⟨w, d, v, h, hd, hplain⟩

end Walk

end Precond
