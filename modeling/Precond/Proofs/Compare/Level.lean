import Precond.Proofs.Compare.Queries

/-! A subroutine compared with itself, under the comparators that options ask for. What they ask for at
the entries leaves the programs at one level: variables have equal values and flags of functions are
equal (`Scene.Usual.hyps`). At one level all that is asked for at the exits holds (`Scene.Usual.posts`). -/

namespace Precond

open IR Walk

theorem PairRel.callees_congr {e e' : Env} {s : Sub} (hs : e'.subs = e.subs)
    (hr : e'.renames = e.renames) : callees e' s = callees e s := by
  have hcallee : calleeOf e' = calleeOf e := by
    funext j
    unfold calleeOf calleeName Env.findSub? Env.canonical
    rw [hs, hr]
  rw [callees, callees, hcallee]

namespace Scene

/-- Both programs of the scene are the same one, and its variables are bound. -/
structure Serves (S : Scene) (s : Sub) : Prop where
  arch : (S.env .mod).arch = (S.env .orig).arch
  subs : (S.env .mod).subs = (S.env .orig).subs
  renames (side : Side) : (S.env side).renames = []
  sp (side : Side) : (S.env side).arch.sp ∈ varsOf (S.env .orig) s
  mem (side : Side) : (S.env side).arch.mem ∈ varsOf (S.env .orig) s
  registers : v ∈ (S.env side).arch.registers → v ∈ varsOf (S.env .orig) s
  bound : v ∈ varsOf (S.env .orig) s → S.Bound v

/-- Variables have equal values in both programs, and so have the flags of functions. -/
structure Level (S : Scene) (s : Sub) (m : Model) : Prop where
  equal : S.Equal (varsOf (S.env .orig) s) m
  called : (S.called .orig).lookup f = some p → (S.called .mod).lookup f = some q →
    p.holds m = q.holds m

/-- The comparators that options ask for, when no texts are given; those that are told apart ask for
equal inputs. -/
inductive Usual (S : Scene) (s : Sub) : Bool → Comparator → Prop
  | stackPointers : Usual S s false .stackPointers
  | memories : Usual S s false .memories
  | calls : (∀ f ∈ PairRel.callees (S.env .orig) s, S.asked f) → Usual S s true .calls
  | registers : post ⊆ varsOf (S.env .orig) s →
      Usual S s true (.registers (varsOf (S.env .orig) s) post)
  | pointers : Usual S s false (.pointers names)
  | emptyPost : Usual S s true .emptyPost

variable {S : Scene} {s : Sub} {m : Model} {side : Side}

/-! ### Inputs -/

theorem Still.sharedVars (hS : S.Serves s) :
    S.Still (· = varsOf (S.env .orig) s) (PairRel.sharedVars s s) := by
  refine (Still.env .mod).bind fun e he => (Still.env .orig).bind fun e' he' => .pure ?_
  obtain ⟨names, called, rfl⟩ := he
  obtain ⟨names', called', rfl⟩ := he'
  refine List.filter_eq_self.mpr fun v hv => List.contains_iff_mem.mpr ?_
  rw [varsOf] at hv ⊢
  rwa [hS.arch]

theorem Still.equalInputs (hS : S.Serves s) :
    S.Still (·.Means (S.Equal (varsOf (S.env .orig) s))) (PairRel.equalInputs s s) :=
  (Still.sharedVars hS).bind fun vars hvars => by
    subst hvars
    exact Still.equalVars (fun _ => hS.bound) _

theorem Still.spRange (hS : S.Serves s) : S.Still (fun _ => True) (Walk.on side Env.spRange) := by
  obtain ⟨t, ht⟩ := hS.bound (hS.sp side) side
  refine .on fun names called p e he => ⟨?_, True.intro⟩
  have hsp := Env.mkVar_of_lookup (e := { S.env side with names, called }) ht
  rw [Env.spRange, EnvM.get_bind, EnvM.bind_of_ok hsp] at he
  obtain ⟨x, e₁, hx, h₁⟩ := EnvM.bind_ok he
  obtain ⟨-, rfl⟩ := EnvM.ofExcept_ok hx
  cases h₁
  rfl

theorem Still.pointerGoal (hS : S.Serves s) {v : Var} (hv : v ∈ varsOf (S.env .orig) s) :
    S.Still Constr.Proper (Walk.pointerGoal side v) := by
  obtain ⟨t, ht⟩ := hS.bound hv side
  refine (Still.mkVar ht).bind fun _ _ => (Still.lift _).bind fun _ _ => (Still.env side).bind fun _ _ => ?_
  exact (Still.mkGoal ..).mono fun _ h => h.proper

theorem Still.register (hS : S.Serves s) (name : String) :
    S.Still (· ∈ varsOf (S.env .orig) s) (Walk.register side name) := by
  refine (Still.env side).bind fun e he => ?_
  obtain ⟨names, called, rfl⟩ := he
  dsimp only
  split
  · rename_i v hv
    exact .pure (hS.registers (List.mem_of_find?_eq_some hv))
  · exact .throw _

theorem Still.pointersBoth (hS : S.Serves s) (names : List String) :
    S.Still Constr.Proper (Walk.pointersBoth names) := by
  have hregs (side : Side) : S.Still (fun vs => ∀ v ∈ vs, v ∈ varsOf (S.env .orig) s)
      (names.mapM (Walk.register side)) :=
    (Still.mapM fun name _ => Still.register hS name).mono fun vs h v hv =>
      let ⟨_, _, hx⟩ := Mirror.forall₂_right h v hv
      hx
  have hgoals (side : Side) {vs : List Var} (hvs : ∀ v ∈ vs, v ∈ varsOf (S.env .orig) s) :
      S.Still (fun cs => ∀ c ∈ cs, c.Proper) (vs.mapM (Walk.pointerGoal side)) :=
    (Still.mapM fun v hv => Still.pointerGoal hS (hvs v hv)).mono fun cs h c hc =>
      let ⟨_, _, hx⟩ := Mirror.forall₂_right h c hc
      hx
  refine (hregs .orig).bind fun vs hvs => (hregs .mod).bind fun vs' hvs' => ?_
  refine (hgoals .orig hvs).bind fun cs hcs => (hgoals .mod hvs').bind fun ds hds => ?_
  refine (Still.mkClause _).mono ?_
  rintro _ ⟨n, rfl⟩
  exact Constr.proper_clause nofun fun c hc => (List.mem_append.mp hc).elim (hcs c) (hds c)

/-! ### Flags -/

theorem Still.calleesOfBoth (hS : S.Serves s) :
    S.Still (fun fs => ∀ f, f ∈ fs ↔ f ∈ PairRel.callees (S.env .orig) s) (PairRel.calleesOfBoth s s) := by
  refine (Still.env .orig).bind fun e he => (Still.env .mod).bind fun e' he' => .pure fun f => ?_
  obtain ⟨names, called, rfl⟩ := he
  obtain ⟨names', called', rfl⟩ := he'
  have horig : PairRel.callees { S.env .orig with names, called } s = PairRel.callees (S.env .orig) s :=
    PairRel.callees_congr rfl rfl
  have hmod : PairRel.callees { S.env .mod with names := names', called := called' } s =
      PairRel.callees (S.env .orig) s :=
    PairRel.callees_congr hS.subs ((hS.renames .mod).trans (hS.renames .orig).symm)
  rw [horig, hmod, List.mem_mergeSort, List.mem_eraseDups, List.mem_append, or_self]

theorem Query.nothingCalled (hS : S.Serves s) {f : String} (hf : S.asked f) :
    S.Query (·.Means (S.Flag side f false)) (PairRel.nothingCalled side f) := by
  refine (Query.getCalled (hS.renames side) hf).bind fun p => .still ((Still.mkGoal ..).mono ?_)
  intro c hc hp
  refine ⟨hc.proper, fun m => (hc.holds m).trans ?_⟩
  rw [Spine.holds_not, Bool.not_eq_true']
  refine ⟨fun h => ⟨p, hp, h⟩, ?_⟩
  rintro ⟨q, hq, h⟩
  cases hp.symm.trans hq
  exact h

/-- At the exits: what the first program has called, the second one has called. -/
theorem Query.sameCalls (hS : S.Serves s) (ha : ∀ f ∈ PairRel.callees (S.env .orig) s, S.asked f) :
    S.Query (fun c => c.Proper ∧ ∀ m, S.Level s m → c.holds m = true) (PairRel.sameCalls s s) := by
  refine .after (Still.calleesOfBoth hS) fun fs hfs => ?_
  refine (Query.mapM (Q := fun _ c => c.Proper ∧ ∀ m, S.Level s m → c.holds m = true)
    fun f hf => ?_).bind fun goals => .still ((Still.mkClause goals).mono ?_)
  · have hf := ha f ((hfs f).mp hf)
    refine (Query.getCalled (hS.renames .orig) hf).bind fun p =>
      (Query.getCalled (hS.renames .mod) hf).bind fun q => .still ((Still.mkGoal ..).mono ?_)
    intro c hc hq hp
    refine ⟨hc.proper, fun m hm => (hc.holds m).mpr ?_⟩
    rw [Spine.holds_implies, hm.called hp hq]
    exact Bool.not_or_self _
  · rintro _ ⟨n, rfl⟩ hgoals
    have hall := fun c hc =>
      let ⟨_, _, hx⟩ := Mirror.forall₂_right hgoals c hc
      hx
    refine ⟨Constr.proper_clause nofun fun c hc => (hall c hc).1, fun m hm => ?_⟩
    rw [Constr.holds_clause, List.all_nil, Bool.not_true, Bool.false_or]
    exact List.all_eq_true.mpr fun c hc => (hall c hc).2 m hm

/-- At the entries: nothing has been called, and inputs are equal. -/
theorem Query.callsHyp (hS : S.Serves s) (ha : ∀ f ∈ PairRel.callees (S.env .orig) s, S.asked f) :
    S.Query (fun c => c.Proper ∧ ∀ m, c.holds m = true → S.Equal (varsOf (S.env .orig) s) m ∧
      ∀ f ∈ PairRel.callees (S.env .orig) s, ∀ side, S.Flag side f false m)
      (Comparator.calls.hyp s s) := by
  refine .after (Still.calleesOfBoth hS) fun fs hfs => ?_
  refine (Query.mapM (Q := fun f cs => ∃ c d, cs = [c, d] ∧ c.Means (S.Flag .orig f false) ∧
    d.Means (S.Flag .mod f false)) fun f hf => ?_).bind fun goals =>
      .after (Still.equalInputs hS) fun inputs hin => .still ((Still.mkClause _).mono ?_)
  · have hf := ha f ((hfs f).mp hf)
    exact (Query.nothingCalled hS hf).bind fun c => (Query.nothingCalled hS hf).bind fun d =>
      .still (.pure fun hd hc => ⟨c, d, rfl, hc, hd⟩)
  · rintro _ ⟨n, rfl⟩ hgoals
    refine ⟨Constr.proper_clause nofun fun e he => ?_, fun m hm => ?_⟩
    · rcases List.mem_append.mp he with he | he
      · obtain ⟨cs, hcs, he⟩ := List.mem_flatten.mp he
        obtain ⟨f, -, c, d, rfl, hc, hd⟩ := Mirror.forall₂_right hgoals cs hcs
        rcases List.mem_cons.mp he with rfl | he
        · exact hc.proper
        · exact List.mem_singleton.mp he ▸ hd.proper
      · exact List.mem_singleton.mp he ▸ hin.proper
    · rw [Constr.holds_clause, List.all_nil, Bool.not_true, Bool.false_or, List.all_eq_true] at hm
      refine ⟨(hin.holds m).mp (hm _ (List.mem_append_right _ (List.mem_singleton_self _))),
        fun f hf side => ?_⟩
      obtain ⟨cs, hcs, c, d, rfl, hc, hd⟩ := Mirror.forall₂_left hgoals f ((hfs f).mpr hf)
      have hin {e : Constr} (he : e ∈ [c, d]) : e.holds m = true :=
        hm e (List.mem_append_left _ (List.mem_flatten.mpr ⟨_, hcs, he⟩))
      cases side with
      | orig => exact (hc.holds m).mp (hin List.mem_cons_self)
      | mod => exact (hd.holds m).mp (hin (List.mem_cons_of_mem _ (List.mem_singleton_self _)))

/-! ### Comparators -/

namespace Usual

variable {b : Bool} {cmp : Comparator} {cmps : List Comparator}

theorem reads {given : Constr → Prop} (h : Usual S s b cmp) : cmp.Reads given := by
  cases h with
  | stackPointers => exact Comparator.reads_stackPointers
  | memories => exact Comparator.reads_memories
  | calls => exact Comparator.reads_calls
  | registers => exact Comparator.reads_registers ..
  | pointers => exact Comparator.reads_pointers _
  | emptyPost => exact Comparator.reads_emptyPost

theorem any : S.Query (fun c => c.Proper ∧ ∀ m, S.Level s m → c.holds m = true) (PairRel.any s s) :=
  .still <| (Still.mkGoal ..).mono fun _ hc => ⟨hc.proper, fun m _ => (hc.holds m).mpr rfl⟩

theorem post (hS : S.Serves s) (h : Usual S s b cmp) :
    S.Query (fun c => c.Proper ∧ ∀ m, S.Level s m → c.holds m = true) (cmp.post s s) := by
  cases h with
  | stackPointers => exact any
  | memories => exact any
  | calls ha => exact Query.sameCalls hS ha
  | registers hsub =>
    refine .still ((Still.equalVars (fun v hv => hS.bound (hsub hv)) _).mono fun c hc => ?_)
    exact ⟨hc.proper, fun m hm => (hc.holds m).mpr fun v hv => hm.equal v (hsub hv)⟩
  | pointers => exact any
  | emptyPost => exact any

/-- A comparator that is told apart asks for equal inputs. -/
theorem hyp (hS : S.Serves s) (h : Usual S s b cmp) : S.Query (fun c => c.Proper ∧ (b = true →
    ∀ m, c.holds m = true → S.Equal (varsOf (S.env .orig) s) m)) (cmp.hyp s s) := by
  cases h with
  | stackPointers =>
    refine .still ?_
    refine (Still.spRange hS).bind fun p _ => (Still.mkGoal ..).bind fun c hc => ?_
    refine (Still.spRange hS).bind fun q _ => (Still.mkGoal ..).bind fun d hd => ?_
    refine (Still.mkClause _).mono ?_
    rintro _ ⟨n, rfl⟩
    refine ⟨Constr.proper_clause nofun fun e he => ?_, nofun⟩
    rcases List.mem_cons.mp he with rfl | he
    · exact hc.proper
    · exact List.mem_singleton.mp he ▸ hd.proper
  | memories =>
    refine .still ((Still.env .orig).bind fun e he => ?_)
    obtain ⟨names, called, rfl⟩ := he
    refine (Still.equalVars (fun v hv => ?_) _).mono fun c hc => ⟨hc.proper, nofun⟩
    exact hS.bound (List.mem_singleton.mp hv ▸ hS.mem .orig)
  | calls ha => exact (Query.callsHyp hS ha).mono fun c hc => ⟨hc.1, fun _ m hm => (hc.2 m hm).1⟩
  | registers hsub =>
    exact .still ((Still.equalVars (fun _ => hS.bound) _).mono fun c hc =>
      ⟨hc.proper, fun _ m => (hc.holds m).mp⟩)
  | pointers => exact .still ((Still.pointersBoth hS _).mono fun c hc => ⟨hc, nofun⟩)
  | emptyPost => exact .still ((Still.equalInputs hS).mono fun c hc => ⟨hc.proper, fun _ m => (hc.holds m).mp⟩)

/-- All that is asked for at the exits holds where the programs are at one level. -/
theorem posts (hS : S.Serves s) (hu : ∀ cmp ∈ cmps, ∃ b, Usual S s b cmp) :
    S.Query (fun cs => ∀ c ∈ cs, c.Proper ∧ ∀ m, S.Level s m → c.holds m = true)
      (cmps.mapM fun cmp => cmp.post s s) :=
  (Query.mapM fun cmp hcmp => let ⟨_, hu⟩ := hu cmp hcmp; hu.post hS).mono fun _ h c hc =>
    let ⟨_, _, hx⟩ := Mirror.forall₂_right h c hc
    hx

/-- What is asked for at the entries leaves the programs at one level. -/
theorem hyps (hS : S.Serves s) (hu : ∀ cmp ∈ cmps, ∃ b, Usual S s b cmp)
    (hrel : ∃ cmp ∈ cmps, Usual S s true cmp)
    (hasked : ∀ f, S.asked f ↔ Comparator.calls ∈ cmps ∧ f ∈ PairRel.callees (S.env .orig) s)
    (hkeys : ∀ side f p, (S.called side).lookup f = some p → S.asked f) :
    S.Query (fun cs => (∀ c ∈ cs, c.Proper) ∧
      ∀ m, (∀ c ∈ cs, c.holds m = true) → S.Level s m) (cmps.mapM fun cmp => cmp.hyp s s) := by
  refine (Query.mapM fun cmp hcmp => let ⟨_, hu⟩ := hu cmp hcmp; (hu.hyp hS).all).mono fun cs h => ?_
  refine ⟨fun c hc => ?_, fun m hm => ⟨?_, fun {f p q} hp hq => ?_⟩⟩
  · obtain ⟨cmp, hcmp, hx⟩ := Mirror.forall₂_right h c hc
    obtain ⟨b, hu⟩ := hu cmp hcmp
    exact (hx _ (hu.hyp hS)).1
  · obtain ⟨cmp, hcmp, hu⟩ := hrel
    obtain ⟨c, hc, hx⟩ := Mirror.forall₂_left h cmp hcmp
    exact (hx _ (hu.hyp hS)).2 rfl m (hm c hc)
  · obtain ⟨hcalls, hf⟩ := (hasked f).mp (hkeys _ _ _ hp)
    obtain ⟨c, hc, hx⟩ := Mirror.forall₂_left h _ hcalls
    have ha : ∀ f ∈ PairRel.callees (S.env .orig) s, S.asked f := fun f hf => (hasked f).mpr ⟨hcalls, hf⟩
    have hflags := ((hx _ (Query.callsHyp hS ha)).2 m (hm c hc)).2 f hf
    obtain ⟨p', hp', hfalse⟩ := hflags .orig
    obtain ⟨q', hq', hfalse'⟩ := hflags .mod
    cases hp.symm.trans hp'
    cases hq.symm.trans hq'
    exact hfalse.trans hfalse'.symm

end Usual

end Scene

end Precond
