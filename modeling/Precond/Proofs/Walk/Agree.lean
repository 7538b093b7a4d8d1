import Precond.Proofs.Flow.Copies
import Precond.Proofs.Walk.Prompt

/-! Walks that are given different numbers of steps. Two actions agree from a world if they do the
same and neither runs out of steps (`Walk.Agree`). A block is walked alike if the callees that are
not being expanded yet are expanded alike (`Walk.visitBlock_agree`). -/

namespace Precond.Walk

open IR Precond.Flow

/-- Two actions do the same from a world: they end with a result of which, with its world, `P` holds,
or with a fault of their own. -/
structure Agree (P : α → World → Prop) (act act' : Walk α) (w : World) : Prop where
  same : act' w = act w
  ends : Outcome P (· ≠ .outOfFuel) act w

/-- What an action from a world leaves as it is. -/
abbrev Staying (F : Frame → Frame → Prop) (side : Side) (w : World) : α → World → Prop :=
  fun _ w' => (w.env side).Stays F (w'.env side)

variable {side : Side} {w : World}

theorem bind_alike {x x' : Walk α} {k k' : α → Walk β} (hx : x' w = x w)
    (hk : ∀ a w', x w = .ok a w' → k' a w' = k a w') : (x' >>= k') w = (x >>= k) w := by
  rw [show (x' >>= k') w = EStateM.bind x' k' w from rfl,
    show (x >>= k) w = EStateM.bind x k w from rfl, EStateM.bind, EStateM.bind, hx]
  cases h : x w with
  | ok a w' => exact hk a w' h
  | error f w' => rfl

namespace Agree

variable {P : α → World → Prop} {Q : β → World → Prop} {x x' : Walk α} {k k' : α → Walk β}

theorem mono {P' : α → World → Prop} (h : Agree P x x' w) (hP : ∀ a w', P a w' → P' a w') :
    Agree P' x x' w := ⟨h.same, h.ends.mono hP fun _ hf => hf⟩

theorem trans {P' : α → World → Prop} {x'' : Walk α} (h : Agree P x x' w) (h' : Agree P' x' x'' w) :
    Agree P x x'' w := ⟨h'.same.trans h.same, h.ends⟩

theorem bind (hx : Agree P x x' w) (hk : ∀ a w', P a w' → Agree Q (k a) (k' a) w') :
    Agree Q (x >>= k) (x' >>= k') w := by
  refine ⟨bind_alike hx.same fun a w' ha => ?_, hx.ends.bind fun a w' ha => (hk a w' ha).ends⟩
  exact (hk a w' (hx.ends.of_ok ha)).same

/-- One action after the other; both leave the same as it is. -/
theorem seq {F : Frame → Frame → Prop} [IsPreorder Frame F] (hx : Agree (Staying F side w) x x' w)
    (hk : ∀ a w', (w.env side).Stays F (w'.env side) →
      Agree (Staying F side w') (k a) (k' a) w') :
    Agree (Staying F side w) (x >>= k) (x' >>= k') w :=
  hx.bind fun a w' hw' => (hk a w' hw').mono fun _ _ h => hw'.trans h

theorem of_prompt (hx : Prompt Fault.Proper x) (h : ∀ a w', w.Still w' → P a w') : Agree P x x w :=
  ⟨rfl, (hx.ends w).mono h fun _ hf => hf⟩

/-- An action before that does not go from block to block. -/
theorem after (hx : Prompt Fault.Proper x) (hk : ∀ a w', w.Still w' → Agree Q (k a) (k' a) w') :
    Agree Q (x >>= k) (x >>= k') w :=
  (of_prompt hx fun _ _ h => h).bind hk

theorem pure {a : α} (h : P a w) : Agree P (Pure.pure a) (Pure.pure a) w := ⟨rfl, .pure h⟩

theorem env {k k' : Env → Walk β} (h : Agree Q (k (w.env side)) (k' (w.env side)) w) :
    Agree Q (Walk.env side >>= k) (Walk.env side >>= k') w := ⟨h.same, h.ends⟩

theorem present {o : Option α} (h : ∀ a, o = some a → Agree Q (k a) (k' a) w) :
    Agree Q (Walk.present o >>= k) (Walk.present o >>= k') w := by
  cases o with
  | some a => exact h a rfl
  | none => exact ⟨rfl, .throw nofun⟩

theorem lift {o : Except Fault α} (ho : Term.Prompt o)
    (h : ∀ a, o = .ok a → Agree Q (k a) (k' a) w) :
    Agree Q ((liftM o : Walk α) >>= k) ((liftM o : Walk α) >>= k') w := by
  cases o with
  | ok a => exact h a rfl
  | error f => exact ⟨rfl, .throw (ho.proper rfl).1⟩

theorem modifyEnv {f : Env → Env} {k k' : Unit → Walk β}
    (h : Agree Q (k ()) (k' ()) (w.setEnv side (f (w.env side)))) :
    Agree Q (Walk.modifyEnv side f >>= k) (Walk.modifyEnv side f >>= k') w := ⟨h.same, h.ends⟩

theorem restoring {f : Env → Env}
    (h : Agree (fun a w' => P a (w'.setEnv side (f (w'.env side)))) x x' w) :
    Agree P (Walk.restoring side f x) (Walk.restoring side f x') w := by
  refine ⟨?_, .restoring h.ends⟩
  rw [Walk.restoring, Walk.restoring, h.same]

end Agree

theorem Prompt.agree {x : Walk α} {F : Frame → Frame → Prop} [IsPreorder Frame F]
    (hx : Prompt Fault.Proper x) (w : World) : Agree (Staying F side w) x x w :=
  .of_prompt hx fun _ _ hw' => hw'.stays

/-! ### Calls and blocks -/

/-- Callees that are not being expanded yet are expanded alike. -/
structure ExpandsAlike (side : Side) (expand expand' : Expand) (e : Env) : Prop where
  agree {post : Constr} {c : Sub} {w : World} : c ∈ e.subs → c.tid ∉ e.inlining →
    (w.env side).subs = e.subs → (w.env side).unrollBound = e.unrollBound →
    (w.env side).inlining = c.tid :: e.inlining →
    Agree (Staying (fun _ _ => True) side w) (expand side post c) (expand' side post c) w

variable {expand expand' : Expand}

theorem ExpandsAlike.stays {e e' : Env} {F : Frame → Frame → Prop}
    (hx : ExpandsAlike side expand expand' e) (h : e.Stays F e') :
    ExpandsAlike side expand expand' e' := by
  refine ⟨fun {post c w} hc hin hsubs hbound hinlining => ?_⟩
  rw [h.subs] at hc hsubs
  rw [h.unrollBound] at hbound
  rw [h.inlining] at hin hinlining
  exact hx.agree hc hin hsubs hbound hinlining

theorem inlineCall_agree (hx : ExpandsAlike side expand expand' (w.env side)) {callee : Sub}
    (hc : callee.blks = [] ∨ callee ∈ (w.env side).subs) (after : Constr) (tid : String) :
    Agree (Staying Eq side w) (inlineCall expand side callee after tid)
      (inlineCall expand' side callee after tid) w := by
  unfold inlineCall
  split
  · exact ((Prompt.on (.note ..) side).bind fun _ => .pure _).agree w
  rename_i hblks
  have hmem : callee ∈ (w.env side).subs := hc.resolve_left fun h => hblks (by rw [h]; rfl)
  refine .env ?_
  split
  · refine Prompt.agree ((Prompt.on (.note ..) side).bind fun _ => (Prompt.env side).bind fun e => ?_) w
    split
    · exact .summarize ..
    · exact .fail ⟨nofun, nofun⟩
  · rename_i hin
    refine .modifyEnv (.restoring (.env (.modifyEnv (.restoring ?_))))
    refine (hx.agree hmem (fun h => hin (List.contains_iff_mem.mpr h)) ?_ ?_ ?_).mono ?_
    all_goals simp only [World.env_setEnv]
    -- the walk of the callee leaves its frame
    intro _ w' h
    simp only [Staying, World.env_setEnv] at h ⊢
    exact ⟨h.subs, h.unrollBound, congrArg (List.drop 1) h.inlining, rfl⟩

/-- What a call does is up to the rule for its callee. -/
theorem handled_agree (hx : ExpandsAlike side expand expand' (w.env side)) {callee : Sub}
    (hc : callee.blks = [] ∨ callee ∈ (w.env side).subs) (after : Constr) (tid : String) :
    Agree (Staying Eq side w) (do
      let h ← on side (Env.handler callee)
      match h.rule with
      | .inline _ => inlineCall expand side callee after tid
      | rule => summarize side rule h.callee after tid) (do
      let h ← on side (Env.handler callee)
      match h.rule with
      | .inline _ => inlineCall expand' side callee after tid
      | rule => summarize side rule h.callee after tid) w := by
  refine .seq ((Prompt.on (.handler callee) side).agree w) fun h w₁ hw₁ => ?_
  split
  · exact inlineCall_agree (hx.stays hw₁) (hc.imp_right fun hc => hw₁.subs ▸ hc) after tid
  · exact (Prompt.summarize ..).agree w₁

theorem visitCall_agree (hx : ExpandsAlike side expand expand' (w.env side)) (post : Constr)
    (tid : String) (target : Label) (ret : Option Label) :
    Agree (Staying Eq side w) (visitCall expand side post tid target ret)
      (visitCall expand' side post tid target ret) w := by
  cases ret
  case' none => refine .seq ((Prompt.returnPre side post).agree w) fun after w₁ hw₁ => ?_
  case' some l => refine .seq ((Prompt.targetPre side l post).agree w) fun after w₁ hw₁ => ?_
  all_goals
    replace hx := hx.stays hw₁
    cases target with
    | indirect => exact ((Prompt.on (.note ..) side).bind fun _ => .pure _).agree w₁
    | direct name =>
      refine .env ?_
      split
      · rename_i s hs
        exact handled_agree hx (.inr (List.mem_of_find?_eq_some hs)) after tid
      · refine .seq ((Prompt.on (.note ..) side).agree w₁) fun _ w₂ hw₂ => ?_
        exact handled_agree (hx.stays hw₂) (.inl rfl) after tid

theorem jumpPre_agree (hx : ExpandsAlike side expand expand' (w.env side)) (post : Constr)
    (j : Jump) : Agree (Staying Eq side w) (jumpPre expand side post j)
      (jumpPre expand' side post j) w := by
  unfold jumpPre
  split
  · exact ((Prompt.on (.note ..) side).bind fun _ => .pure _).agree w
  · exact (Prompt.targetPre ..).agree w
  · exact visitCall_agree hx ..
  · exact (Prompt.returnPre ..).agree w
  · exact (Prompt.targetPre ..).agree w

theorem visitJump_agree (hx : ExpandsAlike side expand expand' (w.env side)) (post : Constr)
    (j : Jump) : Agree (Staying Eq side w) (visitJump expand side post j)
      (visitJump expand' side post j) w := by
  refine .env ?_
  split
  · exact (Prompt.forceJump ..).agree w
  · refine (jumpPre_agree hx post j).seq fun after w₁ _ => Prompt.agree (.ite (.pure _) ?_) w₁
    exact (Prompt.translateChecked side j.cond).bind fun _ => (Prompt.lift (.condition _)).bind fun _ =>
      (Prompt.mkBranch ..).bind fun _ => .guard ..

theorem visitElt_agree (hx : ExpandsAlike side expand expand' (w.env side)) (post : Constr)
    (e : Elt) : Agree (Staying Eq side w) (visitElt expand side post e)
      (visitElt expand' side post e) w := by
  cases e with
  | define d => exact (Prompt.assign ..).agree w
  | phi p => exact (Prompt.visitPhi ..).agree w
  | jump j => exact visitJump_agree hx post j

/-- The elements of a block leave the frame as it is. -/
theorem visitElts_agree (hx : ExpandsAlike side expand expand' (w.env side)) (post : Constr)
    (es : List Elt) : Agree (Staying Eq side w) (visitElts expand side post es)
      (visitElts expand' side post es) w := by
  induction es with
  | nil => exact (Prompt.pure _).agree w
  | cons e es ih => exact ih.seq fun pre w₁ hw₁ => visitElt_agree (hx.stays hw₁) pre e

/-- The frame keeps the preconditions of copies, and new ones are of copies that `B` allows. -/
structure Adds (B : Copy → Prop) (f f' : Frame) : Prop where
  graph : f'.graph = f.graph
  kept {k : String × Unroll} : f.preconds[k]? = some c → f'.preconds[k]? = some c
  new {k : String × Unroll} : f'.preconds[k]? = some c → f.preconds[k]? = some c ∨ B (k.1, k.2.count)

instance (B : Copy → Prop) : IsPreorder Frame (Adds B) where
  refl _ := ⟨rfl, id, .inl⟩
  trans _ _ _ h₁ h₂ := ⟨h₂.graph.trans h₁.graph, fun h => h₂.kept (h₁.kept h),
    fun h => (h₂.new h).elim h₁.new .inr⟩

theorem Adds.mono {B B' : Copy → Prop} (h : Adds B f f') (hB : ∀ c, B c → B' c) : Adds B' f f' :=
  ⟨h.graph, h.kept, fun hk => (h.new hk).imp_right (hB _)⟩

/-- The precondition of a block is kept for the copy that the walk is at. -/
theorem visitBlock_agree (hx : ExpandsAlike side expand expand' (w.env side)) (post : Constr)
    (b : Blk) {B : Copy → Prop} (hB : B (b.tid, (w.env side).frame.unroll.count)) :
    Agree (fun pre w' => (w.env side).Stays (Adds B) (w'.env side) ∧
        (w'.env side).precond? b.tid (w.env side).frame.unroll = some pre)
      (visitBlock expand side post b) (visitBlock expand' side post b) w := by
  refine .env ?_
  split
  · exact .pure ⟨.refl _, ‹_›⟩
  rename_i hnone
  have hx' : ExpandsAlike side expand expand' ((w.setEnv side { w.env side with
      frame := { (w.env side).frame with block := some b.tid } }).env side) := by
    rw [World.env_setEnv]
    exact hx.stays (F := fun _ _ => True) ⟨rfl, rfl, rfl, True.intro⟩
  refine .modifyEnv ((visitElts_agree hx' post b.elts).bind fun pre w₁ hw₁ => .modifyEnv (.pure ?_))
  -- the elements have left the frame, so that the block is kept where it was looked for
  rw [Staying, World.env_setEnv] at hw₁
  obtain ⟨hsubs, hbound, hinlining, hframe⟩ := hw₁
  rw [World.env_setEnv]
  dsimp only [Env.addPrecond, Env.precond?] at hnone ⊢
  rw [← hframe]
  refine ⟨⟨hsubs, hbound, hinlining, rfl, fun {c k} hk => ?_, fun {c k} hk => ?_⟩, ?_⟩
  · rw [Std.HashMap.getElem?_insert, if_neg fun hkey => ?_]
    · exact hk
    · rw [← eq_of_beq hkey, hnone] at hk
      cases hk
  · rw [Std.HashMap.getElem?_insert] at hk
    split at hk
    · rename_i hkey
      rw [← eq_of_beq hkey]
      exact .inr hB
    · exact .inl hk
  · rw [Std.HashMap.getElem?_insert, if_pos (beq_self_eq_true _)]

end Precond.Walk
