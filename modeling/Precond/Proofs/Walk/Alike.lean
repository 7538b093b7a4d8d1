import Precond.Proofs.Walk.Twin

/-! The elements of a block for two walks. What the elements start from is related, and if callees are
expanded alike (`Twin.Expanded`), so is what they come to (`Walk.Alike.visitElts`). -/

namespace Precond

open IR Precond.Flow

/-- Bodies of callees are expanded alike, in frames of their own. -/
structure Twin.Expanded (T : Twin) (z : Option World) (expand : Walk.Expand) (expand' : Nat → Walk.Expand) :
    Prop where
  expands : Walk.Keeps.Expands T.scope T.side expand
  run {K : Constr → Prop} {w v w₁ : World} {post post' c : Constr} {s : Sub} : T.scope.body T.side s →
    T.Linked z K w v → T.Held K post post' → (w.env T.side).frame.root = none →
    (v.env T.side).frame.root = none → expand T.side post s w = .ok c w₁ → Walk.UpTo z w₁ →
    ∃ c' v₁ K₁, Walk.Eventually (fun n => expand' n T.side post' s) v c' v₁ ∧ (∀ d, K d → K₁ d) ∧
      T.Linked z K₁ w₁ v₁ ∧ T.Held K₁ c c'

namespace Walk

variable {S : Scope} {T : Twin} {z : Option World} {K K₁ : Constr → Prop} {w v w₁ v₁ : World}
  {side : Side}

/-! ### Constants -/

/-- What an action gives where variables and flags stand for constants. -/
def Gives (S : Scope) (P : α → Prop) (x : Walk α) : Prop :=
  ∀ ⦃w a w₁⦄, w.Under S → w.Constant → x w = .ok a w₁ → P a

namespace Gives

variable {P : α → Prop} {Q : β → Prop}

theorem pure {a : α} (h : P a) : Gives S P (Pure.pure a) := by
  rintro w _ _ - - ha
  cases ha
  exact h

theorem throw (f : Fault) : Gives S P (MonadExcept.throw f : Walk α) :=
  fun _ _ _ _ _ ha => nomatch ha

theorem present {o : Option α} (h : ∀ a, o = some a → P a) : Gives S P (Walk.present o) := by
  cases o with
  | some a => exact pure (h a rfl)
  | none => exact throw _

theorem bind {x : Walk α} {k : α → Walk β} (hs : Steady S x) (hx : Gives S P x)
    (hk : ∀ a, P a → Gives S Q (k a)) : Gives S Q (x >>= k) := by
  intro w b w₂ hw hc hb
  obtain ⟨a, w₁, ha, h₁⟩ := bind_ok hb
  have hw₁ := hs.toKeeps.of_ok hw ha
  exact hk a (hx hw hc ha) (hw₁.under hw) (hw₁.constant hc) h₁

theorem after {x : Walk α} {k : α → Walk β} (hs : Steady S x) (hk : ∀ a, Gives S Q (k a)) :
    Gives S Q (x >>= k) := bind (P := fun _ => True) hs (fun _ _ _ _ _ _ => True.intro) fun a _ => hk a

theorem env {k : Env → Walk α} (h : ∀ e, Gives S P (k e)) : Gives S P (Walk.env side >>= k) :=
  fun _ _ _ hw hc ha => h _ hw hc ha

theorem mapM {xs : List β} {f : β → Walk α} (hs : ∀ x, Steady S (f x)) (h : ∀ x, Gives S P (f x)) :
    Gives S (fun as => ∀ a ∈ as, P a) (xs.mapM f) := by
  induction xs with
  | nil => exact pure nofun
  | cons x xs ih =>
    rw [List.mapM_cons]
    refine (h x).bind (hs x) fun a ha => ih.bind (.mapM hs) fun as has => pure fun b hb => ?_
    rcases List.mem_cons.mp hb with rfl | hb
    · exact ha
    · exact has b hb

theorem mkVar (u : Var) : Gives S SomeTerm.IsConst (Walk.on side (Env.mkVar u)) := by
  intro w t w₁ _ hc ht
  obtain ⟨e, he, rfl⟩ := on_ok ht
  obtain ⟨hv, -⟩ | ⟨n, s, _, -, -, -, rfl, -⟩ := Env.mkVar_ok he
  · exact (hc side).vars hv
  · exact ⟨n, s, rfl⟩

theorem getCalled (name : String) :
    Gives S (fun t => SomeTerm.IsConst ⟨_, t⟩) (Walk.on side (Env.getCalled name)) := by
  intro w t w₁ _ hc ht
  obtain ⟨e, he, rfl⟩ := on_ok ht
  cases hl : (w.env side).called.lookup ((w.env side).canonical name) with
  | some u =>
    cases (Env.getCalled_of_lookup hl).symm.trans he
    obtain ⟨c, rfl⟩ := (hc side).called hl
    exact ⟨c, .bool, rfl⟩
  | none =>
    obtain ⟨full, names, hnew⟩ := Env.getCalled_of_none hl
    cases hnew.symm.trans he
    exact ⟨full, .bool, rfl⟩

theorem poppedSp : Gives S (fun p => p.1.IsConst) (Walk.poppedSp side) := by
  refine env fun e => (mkVar _).bind (.mkVar _) fun sp hsp => after (.lift _) fun s => ?_
  cases s with
  | bv w => exact after (.lift _) fun _ => pure hsp
  | bool => exact throw _
  | mem => exact throw _

theorem returnEffects (callee : Sub) :
    Gives S (fun ps => ∀ p ∈ ps, p.1.IsConst) (Walk.returnEffects side callee) := by
  have hlast (popped : List (SomeTerm × SomeTerm)) (hp : ∀ p ∈ popped, p.1.IsConst) :
      Gives S (fun ps => ∀ p ∈ ps, p.1.IsConst) (do
        let called ← on side (Env.getCalled callee.name)
        return popped ++ [(⟨_, called⟩, ⟨_, .truth true⟩)]) := by
    refine (getCalled _).bind (.on (.getCalled _)) fun called hcalled => pure fun p hmem => ?_
    rcases List.mem_append.mp hmem with hmem | hmem
    · exact hp p hmem
    · cases List.mem_singleton.mp hmem
      exact hcalled
  refine env fun e => ?_
  dsimp only
  split
  · refine poppedSp.bind .poppedSp fun p hp => hlast [p] fun q hq => ?_
    cases List.mem_singleton.mp hq
    exact hp
  · exact hlast [] nofun

theorem summaryPairs (callee : Sub) (inputs outputs : List Var) :
    Gives S (fun ps => ∀ p ∈ ps, p.1.IsConst) (Walk.summaryPairs side callee inputs outputs) := by
  have hfold {ps qs : List (SomeTerm × SomeTerm)} (hp : ∀ p ∈ ps, p.1.IsConst)
      (hq : ∀ q ∈ qs, q.1.IsConst) : ∀ p ∈ qs.foldl (fun pairs p =>
        if pairs.any fun q => p.1.same q.1 then pairs else pairs ++ [p]) ps, p.1.IsConst := by
    induction qs generalizing ps with
    | nil => exact hp
    | cons q qs ih =>
      refine ih ?_ fun r hr => hq r (List.mem_cons_of_mem q hr)
      dsimp only
      split
      · exact hp
      · intro p hmem
        rcases List.mem_append.mp hmem with hmem | hmem
        · exact hp p hmem
        · cases List.mem_singleton.mp hmem
          exact hq q List.mem_cons_self
  have hone (name : String) (args : List SomeTerm) (sorts : List TSort) (out : Var) :
      let f : Walk (SomeTerm × SomeTerm) := do
        let ran ← out.type.sort
        let f ← on side (Env.declare (name ++ "_" ++ out.name) sorts ran)
        let old ← on side (Env.mkVar out)
        return (old, ← f.apply args)
      Steady S f ∧ Gives S (fun p => p.1.IsConst) f := by
    refine ⟨(Steady.lift _).bind fun _ => (Steady.on (.declare ..)).bind fun _ =>
      (Steady.mkVar _).bind fun _ => (Steady.lift _).bind fun _ => .pure _, ?_⟩
    exact after (.lift _) fun _ => after (.on (.declare ..)) fun _ =>
      (mkVar _).bind (.mkVar _) fun old hold => after (.lift _) fun _ => pure hold
  refine after (.mapM fun v => .mkVar v) fun args => after (.mapM fun _ => .ofExcept _) fun sorts =>
    env fun e => ?_
  refine (mapM (fun out => (hone _ _ _ out).1) fun out => (hone _ _ _ out).2).bind
    (.mapM fun out => (hone _ _ _ out).1) fun changed hchanged => ?_
  exact (returnEffects callee).bind (.returnEffects callee) fun effects heffects =>
    pure (hfold hchanged heffects)

end Gives

namespace Alike

/-! ### Assignments -/

theorem assign {s : Sub} (hs : T.scope.body T.side s) {lhs : Var} {rhs : Exp} (he : T.scope.draws ∨ rhs.known) {post post' : Constr}
    (hl : T.Linked z K w v) (hp : T.Held K post post') :
    Alike T z T.Held (Walk.assign T.side post lhs rhs) (fun _ => Walk.assign T.side post' lhs rhs)
      K w v := by
  refine after hl (.translateChecked hs he)
    (fun _ => (Keeps.steady (.mkVar lhs)).bind fun _ => Keeps.replaced ..) fun ⟨value, hooks⟩ w₁ v₁ _ h₁ => ?_
  refine after h₁.linked (.mkVar lhs) (fun _ => Keeps.replaced ..) fun old w₂ v₂ hold h₂ => ?_
  have hconst : T.constants → ∀ t ∈ [old], t.IsConst := fun hC t ht => by
    cases List.mem_singleton.mp ht
    exact Gives.mkVar lhs h₁.linked.under (h₁.linked.constant hC) hold
  refine ite (throw _) (makes h₂.linked ?_)
  refine (Makes.guard hp ..).bind fun K₁ c c' _ hc => ?_
  exact (Makes.substitute hc hconst _).bind fun K₂ d d' _ hd => .guard hd ..

theorem visitPhi {s : Sub} (hs : T.scope.body T.side s) {p : Phi} (he : T.scope.draws ∨ (Elt.phi p).known) {post post' : Constr}
    (hl : T.Linked z K w v) (hf : T.Placed K w v) (hp : T.Held K post post') :
    Alike T z T.Held (Walk.visitPhi T.side post p) (fun _ => Walk.visitPhi T.side post' p) K w v := by
  refine env ?_
  rw [hf.pred]
  split
  · rename_i value hv
    obtain ⟨pred, -, hpred⟩ := Option.bind_eq_some_iff.mp hv
    exact assign hs ((Keeps.phi_known he).2 _ _ hpred) hl hp
  · refine after hl (.on (.note ..)) (fun _ => Keeps.assign hs (Keeps.phi_known he).1 ..) fun _ w₁ v₁ _ h₁ => ?_
    exact assign hs (Keeps.phi_known he).1 h₁.linked hp

/-! ### Where jumps lead -/

theorem targetPre (l : Label) {post post' : Constr} (hl : T.Linked z K w v) (hf : T.Placed K w v)
    (hp : T.Held K post post') :
    Alike T z T.Held (Walk.targetPre T.side l post) (fun _ => Walk.targetPre T.side l post') K w v := by
  cases l with
  | direct t => exact env (pure hl (Twin.Held.getD (hf.target t) hp))
  | indirect => exact pure hl hp

theorem returnPre {post post' : Constr} (hl : T.Linked z K w v) (hf : T.Placed K w v)
    (hp : T.Held K post post') :
    Alike T z T.Held (Walk.returnPre T.side post) (fun _ => Walk.returnPre T.side post') K w v :=
  env (pure hl (Twin.Held.getD hf.retPost hp))

/-! ### Calls -/

theorem replaceAll {x : Walk (List (SomeTerm × SomeTerm))} (hl : T.Linked z K w v)
    (hx : Steady T.scope x) (hg : Gives T.scope (fun ps => ∀ p ∈ ps, p.1.IsConst) x)
    {post post' : Constr} (hp : T.Held K post post') :
    Alike T z T.Held (x >>= fun pairs => Walk.replaceAll post pairs)
      (fun _ => x >>= fun pairs => Walk.replaceAll post' pairs) K w v := by
  refine after hl hx (fun _ => .replaceAll ..) fun pairs w₁ v₁ hpairs h₁ => makes h₁.linked ?_
  exact .replaceAll hp fun hC => hg hl.under (hl.constant hC) hpairs

theorem summary (callee : Sub) (inputs outputs : List Var) {post post' : Constr}
    (hl : T.Linked z K w v) (hp : T.Held K post post') :
    Alike T z T.Held (Walk.summary T.side callee inputs outputs post)
      (fun _ => Walk.summary T.side callee inputs outputs post') K w v := by
  rw [summary_eq, summary_eq]
  exact replaceAll hl (.summaryPairs ..) (Gives.summaryPairs ..) hp

theorem contract (hS : T.scope.draws) (callee : Sub) (name pre post : String) {after after' : Constr}
    (hl : T.Linked z K w v) (hp : T.Held K after after') :
    Alike T z T.Held (Walk.contract T.side callee name pre post after)
      (fun _ => Walk.contract T.side callee name pre post after') K w v := by
  obtain rfl := hl.settled hS
  have hbind (r : Var) : Steady T.scope (do return (r, ← on T.side (Env.mkVar r))) :=
    (Steady.mkVar r).bind fun _ => .pure _
  refine policy hl ?_ (fun _ => rfl) fun _ _ => rfl
  refine seq (steady hl (.mapM hbind)) fun current w₁ b v₁ K₁ hcurrent h₁ => ?_
  obtain rfl := h₁.result
  have hconst : T.constants → ∀ p ∈ b, p.2.IsConst := fun hC =>
    Gives.mapM hbind (fun r => (Gives.mkVar r).bind (.mkVar r) fun _ ht => .pure ht) hl.under
      (hl.constant hC) hcurrent
  refine seq (steady h₁.linked (.mapM fun r => (Steady.on (.fresh hS ..)).bind fun _ => .pure _))
    fun chaos w₂ c v₂ K₂ _ h₂ => ?_
  obtain rfl := h₂.result
  refine seq (makes h₂.linked (.formula ..)) fun subPre w₃ subPre' v₃ K₃ _ h₃ => ?_
  refine seq (makes h₃.linked (.formula ..)) fun subPost w₄ subPost' v₄ K₄ _ h₄ => ?_
  refine seq (steady h₄.linked (.mapM fun _ => .present _)) fun olds w₅ d v₅ K₅ holds h₅ => ?_
  obtain rfl := h₅.result
  have hold : T.constants → ∀ t ∈ d, t.IsConst := fun hC =>
    Gives.mapM (fun _ => .present _) (fun (r, _) => Gives.present fun t ht =>
      hconst hC _ (Table.mem_of_lookup ht)) h₄.linked.under (h₄.linked.constant hC) holds
  have hp₅ : T.Held K₅ after after' := hp.mono fun e he =>
    h₅.grows e (h₄.grows e (h₃.grows e (h₂.grows e (h₁.grows e he))))
  refine seq (makes h₅.linked (.substitute hp₅ hold _)) fun chaosed w₆ chaosed' v₆ K₆ _ h₆ => ?_
  refine seq (steady h₆.linked (.returnEffects callee)) fun effects w₇ e v₇ K₇ heffects h₇ => ?_
  obtain rfl := h₇.result
  refine seq (makes h₇.linked (.replaceAll (h₆.result.mono h₇.grows) fun hC =>
    Gives.returnEffects callee h₆.linked.under (h₆.linked.constant hC) heffects))
    fun returned w₈ returned' v₈ K₈ _ h₈ => makes h₈.linked ?_
  have hgrows (e : Constr) (he : K₄ e) : K₈ e :=
    h₈.grows e (h₇.grows e (h₆.grows e (h₅.grows e he)))
  refine (Makes.mkClause (fun c hc => ?_) (.cons h₄.result.2 .nil) (.cons h₈.result .nil)).bind
    fun K₉ inner inner' h₉ hinner => .mkClause nofun .nil (.cons ?_ (.cons hinner .nil))
  · cases List.mem_singleton.mp hc
    exact hgrows _ h₄.result.1
  · exact .of_copy (h₉ _ (hgrows _ (h₄.grows _ h₃.result.1))) h₃.result.2

theorem summarize {rule : CallRule} (hr : T.scope.draws ∨ rule.quiet) (callee : Sub) (tid : String)
    {post post' : Constr} (hl : T.Linked z K w v) (hp : T.Held K post post') :
    Alike T z T.Held (Walk.summarize T.side rule callee post tid)
      (fun _ => Walk.summarize T.side rule callee post' tid) K w v := by
  refine policy hl ?_ (fun _ => rfl) fun _ _ => rfl
  have heffects : Alike T z T.Held (do Walk.replaceAll post (← Walk.returnEffects T.side callee))
      (fun _ => do Walk.replaceAll post' (← Walk.returnEffects T.side callee)) K w v :=
    replaceAll hl (.returnEffects callee) (Gives.returnEffects callee) hp
  cases rule with
  | verifierError => exact makes hl (.mkGoal ..)
  | verifierAssume =>
    refine after hl .firstArg (fun _ => (Keeps.lift _).bind fun _ => (Keeps.mkGoal ..).bind fun _ =>
      .mkClause ..) fun arg w₁ v₁ _ h₁ => lift fun cond _ => makes h₁.linked ?_
    refine (Makes.mkHyp ..).bind fun K₁ c c' hK hc => .mkClause (fun d hd => ?_) (.cons hc.2 .nil)
      (.cons (hp.mono hK) .nil)
    cases List.mem_singleton.mp hd
    exact hc.1
  | verifierNondet =>
    have hS := hr.resolve_right nofun
    dsimp only
    split
    · exact throw _
    · refine after hl (.on (.fresh hS ..)) (fun _ => (Keeps.steady (.mkVar _)).bind fun _ =>
        .substitute ..) fun value w₁ v₁ _ h₁ => ?_
      refine after h₁.linked (.mkVar _) (fun _ => .substitute ..) fun old w₂ v₂ hold h₂ => ?_
      refine makes h₂.linked (.substitute hp (fun hC t ht => ?_) _)
      cases List.mem_singleton.mp ht
      exact Gives.mkVar _ h₁.linked.under (h₁.linked.constant hC) hold
  | empty =>
    refine after hl (.on (.getCalled _)) (fun _ => .substitute ..) fun called w₁ v₁ hcalled h₁ => ?_
    refine makes h₁.linked (.substitute hp (fun hC t ht => ?_) _)
    cases List.mem_singleton.mp ht
    exact Gives.getCalled _ hl.under (hl.constant hC) hcalled
  | argTerms => exact summary _ _ _ hl hp
  | raxOut | chaosRax =>
    dsimp only
    split
    · exact throw _
    · exact policy hl (summary _ _ _ hl hp) (fun _ => rfl) fun _ _ => rfl
  | chaosCallerSaved => exact policy hl (summary _ _ _ hl hp) (fun _ => rfl) fun _ _ => rfl
  | contract => exact contract (hr.resolve_right nofun) _ _ _ _ hl hp
  | default => exact heffects
  | inline => exact heffects

/-! ### Jumps -/

theorem branched {s : Sub} (hs : T.scope.body T.side s) {j : Jump} (hj : T.scope.draws ∨ j.cond.known) {after after' post post' : Constr}
    (hl : T.Linked z K w v) (ha : T.Held K after after') (hp : T.Held K post post') :
    Alike T z T.Held (Walk.branched T.side after post j)
      (fun _ => Walk.branched T.side after' post' j) K w v := by
  refine ite (pure hl ha) ?_
  refine Alike.after hl (.translateChecked hs hj) (fun _ => (Keeps.lift _).bind fun _ =>
    (Keeps.mkBranch ..).bind fun _ => .guard ..) fun ⟨cond, hooks⟩ w₁ v₁ _ h₁ => lift fun cond _ => ?_
  exact makes h₁.linked ((Makes.mkBranch _ _ ha hp).bind fun K₁ c c' _ hc => .guard hc ..)

theorem forceJump {j : Jump} (hj : T.scope.draws ∨ j.cond.known) (target : String) (taken : Bool)
    {post post' : Constr} (hl : T.Linked z K w v) (hf : T.Placed K w v) (hp : T.Held K post post') :
    Alike T z T.Held (Walk.forceJump T.side post j target taken)
      (fun _ => Walk.forceJump T.side post' j target taken) K w v := by
  refine after hl (.condition hj) (fun _ => Keeps.ite
    ((Keeps.targetPre ..).bind fun _ => (Keeps.mkGoal ..).bind fun _ => .mkClause ..)
    ((Keeps.mkGoal ..).bind fun _ => .mkClause ..)) fun cond w₁ v₁ _ h₁ => ite ?_ ?_
  · refine bind (targetPre _ h₁.linked (hf.step h₁) hp) h₁.linked (.targetPre ..) (fun _ =>
      (Keeps.mkGoal ..).bind fun _ => .mkClause ..) fun after w₂ after' v₂ K₂ _ h₂ => makes h₂.linked ?_
    exact (Makes.mkGoal ..).bind fun K₃ c c' hK hc => .mkClause nofun .nil
      (.cons hc (.cons (h₂.result.mono hK) .nil))
  · exact makes h₁.linked ((Makes.mkGoal ..).bind fun K₂ c c' hK hc => .mkClause nofun .nil
      (.cons hc (.cons (hp.mono hK) .nil)))

/-- What the body of a callee comes to is what its caller finds. -/
theorem nesting {x : Walk Constr} {x' : Nat → Walk Constr} {tid : String} (hl : T.Linked z K w v)
    (hx : ∀ c w₁, T.Linked z K (inside w T.side tid) (inside v T.side tid) →
      x (inside w T.side tid) = .ok c w₁ → UpTo z w₁ →
      ∃ c' v₁ K₁, Eventually x' (inside v T.side tid) c' v₁ ∧ (∀ d, K d → K₁ d) ∧
        T.Linked z K₁ w₁ v₁ ∧ T.Held K₁ c c') :
    Alike T z T.Held (Walk.nesting T.side tid x) (fun n => Walk.nesting T.side tid (x' n)) K w v := by
  refine ⟨fun c w₂ hc hwithin => ?_⟩
  have hin : T.Linked z K (inside w T.side tid) (inside v T.side tid) :=
    hl.setEnv rfl rfl (congrArg (tid :: ·) (hl.inlining T.side)) rfl rfl
  rw [nesting_eq] at hc
  cases hrun : x (inside w T.side tid) with
  | error f w₁ =>
    rw [hrun] at hc
    cases hc
  | ok a w₁ =>
  rw [hrun] at hc
  cases hc
  have hback : w₁.Same (outside w T.side w₁) := World.same_setEnv rfl
  obtain ⟨c', v₁, K₁, ⟨m, hm⟩, hK, hl₁, hc'⟩ := hx c w₁ hin hrun (hwithin.of_before hback.before)
  refine ⟨c', outside v T.side v₁, K₁, ⟨m, fun n hn => ?_⟩, hK, ?_, ?_, ?_, hc'⟩
  · show Walk.nesting T.side tid (x' n) v = _
    rw [nesting_eq, hm n hn]
  · exact hl₁.setEnv rfl rfl (congrArg (List.drop 1) (hl₁.inlining T.side)) rfl rfl
  · rw [outside, World.env_setEnv]
  · rw [outside, World.env_setEnv]

section

variable {expand : Expand} {expand' : Nat → Expand} {s : Sub} {b : Blk} {j : Jump}
  {post post' : Constr} (hx : T.Expanded z expand expand') (hs : T.scope.body T.side s) (hb : b ∈ s.blks)
  (hj : .jump j ∈ b.elts) (hl : T.Linked z K w v) (hp : T.Held K post post')

include hx hs hb hj hl hp

theorem inlineCall {name : String} {ret : Option Label} {tids : List String}
    (hk : j.kind = .call (.direct name) ret)
    (hr : T.scope.rule T.side ((T.scope.policy T.side).callee name).tid (.inline tids)) (tid : String) :
    Alike T z T.Held
      (Walk.inlineCall expand T.side ((T.scope.policy T.side).callee name) post tid)
      (fun n => Walk.inlineCall (expand' n) T.side ((T.scope.policy T.side).callee name) post' tid)
      K w v := by
  unfold Walk.inlineCall
  split
  · exact after hl (.on (.note ..)) (fun _ => .pure _) fun _ w₁ v₁ _ h₁ => pure h₁.linked hp
  rename_i hblks
  obtain ⟨hbody, hfallback⟩ := T.scope.expanded hs hb hj hk hr fun h => hblks (by rw [h]; rfl)
  refine env ?_
  rw [hl.inlining T.side]
  split
  · refine after hl (.on (.note ..)) (fun _ => .env fun e he => ?_) fun _ w₁ v₁ _ h₁ =>
      policy h₁.linked ?_ (fun _ => rfl) fun _ _ => rfl
    · split
      · rename_i r hr
        exact .summarize (hfallback r (he ▸ hr)) ..
      · exact .throw _
    · split
      · rename_i r hr
        exact summarize (hfallback r hr) _ _ h₁.linked hp
      · exact throw _
  · refine nesting hl fun c w₁ hin hc hwithin => hx.run hbody hin hp ?_ ?_ hc hwithin
    all_goals
      rw [inside, World.env_setEnv]
      rfl

theorem handled {name : String} {ret : Option Label} (hk : j.kind = .call (.direct name) ret)
    (tid : String) :
    Alike T z T.Held (dispatch expand T.side post tid ((T.scope.policy T.side).callee name))
      (fun n => dispatch (expand' n) T.side post' tid ((T.scope.policy T.side).callee name)) K w v := by
  have hrule {h : Handler} {w₁ : World}
      (hh : on T.side (Env.handler ((T.scope.policy T.side).callee name)) w = .ok h w₁) :
      T.scope.rule T.side ((T.scope.policy T.side).callee name).tid h.rule :=
    handler_rule hl.under (fun _ => T.scope.chosen hs hb hj hk) hh
  refine after_of hl (.on (.handler fun _ => T.scope.chosen hs hb hj hk)) (fun h w₁ hh => ?_)
    fun h w₁ v₁ hh h₁ => ?_
  · split
    · rename_i tids hinline
      exact Keeps.inlineCall hx.expands hs hb hj hk (hinline ▸ hrule hh) post tid
    · exact .summarize (T.scope.quiet hs hb hj hk (hrule hh)) ..
  · split
    · rename_i tids hinline
      exact inlineCall hx hs hb hj h₁.linked hp hk (hinline ▸ hrule hh) tid
    · exact summarize (T.scope.quiet hs hb hj hk (hrule hh)) _ _ h₁.linked hp

theorem called {target : Label} {ret : Option Label} (hk : j.kind = .call target ret)
    (tid : String) : Alike T z T.Held (Walk.called expand T.side post tid target)
      (fun n => Walk.called (expand' n) T.side post' tid target) K w v := by
  cases target with
  | indirect =>
    exact after hl (.on (.note ..)) (fun _ => .pure _) fun _ w₁ v₁ _ h₁ => pure h₁.linked hp
  | direct name =>
    refine policy hl ?_ (fun _ => rfl) fun _ _ => rfl
    have hcalled := fun {w v} hl => handled (w := w) (v := v) hx hs hb hj hl hp hk tid
    have hkeep := Keeps.handled hx.expands hs hb hj hk post tid
    rw [Env.callee] at hcalled hkeep
    cases hsub : (T.scope.policy T.side).findSub? (.direct name) with
    | some s =>
      simp only [hsub] at hcalled ⊢
      exact hcalled hl
    | none =>
      simp only [hsub] at hcalled hkeep ⊢
      exact after hl (.on (.note ..)) (fun _ => hkeep) fun _ w₁ v₁ _ h₁ => hcalled h₁.linked

theorem visitCall (hf : T.Placed K w v) {target : Label} {ret : Option Label}
    (hk : j.kind = .call target ret) (tid : String) :
    Alike T z T.Held (Walk.visitCall expand T.side post tid target ret)
      (fun n => Walk.visitCall (expand' n) T.side post' tid target ret) K w v := by
  cases ret with
  | none =>
    exact bind (returnPre hl hf hp) hl (.returnPre post)
      (fun after => Keeps.called hx.expands hs hb hj hk after tid)
      fun _ _ _ _ _ _ h₁ => called hx hs hb hj h₁.linked h₁.result hk tid
  | some l =>
    exact bind (targetPre l hl hf hp) hl (.targetPre l post)
      (fun after => Keeps.called hx.expands hs hb hj hk after tid)
      fun _ _ _ _ _ _ h₁ => called hx hs hb hj h₁.linked h₁.result hk tid

theorem jumpPre (hf : T.Placed K w v) : Alike T z T.Held (Walk.jumpPre expand T.side post j)
    (fun n => Walk.jumpPre (expand' n) T.side post' j) K w v := by
  unfold Walk.jumpPre
  split
  · exact after hl (.on (.note ..)) (fun _ => .pure _) fun _ w₁ v₁ _ h₁ => pure h₁.linked hp
  · exact targetPre _ hl hf hp
  · rename_i target ret hk
    exact visitCall hx hs hb hj hl hp hf hk j.tid
  · exact returnPre hl hf hp
  · exact targetPre _ hl hf hp

theorem visitJump (hf : T.Placed K w v) : Alike T z T.Held (Walk.visitJump expand T.side post j)
    (fun n => Walk.visitJump (expand' n) T.side post' j) K w v := by
  have hknown : T.scope.draws ∨ j.cond.known := T.scope.elts hs hb hj
  refine policy hl ?_ (fun _ => rfl) fun _ _ => rfl
  split
  · exact forceJump hknown _ _ hl hf hp
  · exact bind (jumpPre hx hs hb hj hl hp hf) hl (.jumpPre hx.expands hs hb hj post)
      (fun after => Keeps.branched hs hknown after post) fun _ _ _ _ _ _ h₁ =>
        branched hs hknown h₁.linked h₁.result (hp.mono h₁.grows)

end

section

variable {expand : Expand} {expand' : Nat → Expand} {s : Sub} {b : Blk}
  (hx : T.Expanded z expand expand') (hs : T.scope.body T.side s) (hb : b ∈ s.blks)

include hx hs hb

theorem visitElt {e : Elt} (he : e ∈ b.elts) {post post' : Constr} (hl : T.Linked z K w v)
    (hf : T.Placed K w v) (hp : T.Held K post post') :
    Alike T z T.Held (Walk.visitElt expand T.side post e)
      (fun n => Walk.visitElt (expand' n) T.side post' e) K w v := by
  cases e with
  | define d => exact assign hs (T.scope.elts hs hb he) hl hp
  | phi p => exact visitPhi hs (T.scope.elts hs hb he) hl hf hp
  | jump j => exact visitJump hx hs hb he hl hp hf

/-- What the elements of a block come to is related if what they start from is. -/
theorem visitElts {es : List Elt} (hes : ∀ e ∈ es, e ∈ b.elts) {post post' : Constr}
    (hl : T.Linked z K w v) (hf : T.Placed K w v) (hp : T.Held K post post') :
    Alike T z T.Held (Walk.visitElts expand T.side post es)
      (fun n => Walk.visitElts (expand' n) T.side post' es) K w v := by
  induction es with
  | nil => exact pure hl hp
  | cons e es ih =>
    refine bind (ih fun e' he' => hes e' (List.mem_cons_of_mem e he')) hl
      (.visitElts hx.expands hs hb (fun e' he' => hes e' (List.mem_cons_of_mem e he')) post)
      (fun pre => Keeps.visitElt hx.expands hs hb (hes e List.mem_cons_self) pre)
      fun _ _ _ _ _ _ h₁ => ?_
    exact visitElt hx hs hb (hes e List.mem_cons_self) h₁.linked (hf.step h₁) h₁.result

end

end Alike

end Walk

end Precond
