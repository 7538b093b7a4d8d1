import Precond.Analysis.Setup
import Precond.Proofs.Compare.Level
import Precond.Proofs.Compare.Opening
import Precond.Proofs.Compare.Tandem

/-! A subroutine compared with itself. The comparison opens with environments that differ in their
constants only (`Compare.Opening.ready`); what is asked for at the entries brings the programs to one
level, and what is asked for at the exits holds there (`Compare.Opening.levels`).

Comparisons of a program with itself under options without texts (`Options.Plain`): the
environments they start from, and the comparators that they ask for (`Analysis.comparators_usual`). -/

namespace Precond.Compare

open IR Walk

/-- Two environments of one program where no variable has a constant yet. -/
structure Matched (w : World) : Prop where
  known_arch : (w.env .orig).arch ∈ Arch.all
  arch : (w.env .mod).arch = (w.env .orig).arch
  subs : (w.env .mod).subs = (w.env .orig).subs
  renames (side : Side) : (w.env side).renames = []
  tidy (side : Side) : (w.env side).Tidy
  vars (side : Side) : (w.env side).vars = []
  called (side : Side) : (w.env side).called = []
  funcs (side : Side) : (w.env side).funcs = []
  handlers (side : Side) : (w.env side).handlers = []
  frame (side : Side) : (w.env side).frame = .start

/-- The environments differ in their constants only, and those variables have constants that the
subroutine or its architecture knows. -/
structure Ready (s : Sub) (w w' : World) (side : Side) : Prop where
  env : ∃ names vars inits called, w'.env side = { w.env side with names, vars, inits, called }
  bound : (w'.env side).vars.lookup v ≠ none ↔ v ∈ varsOf (w.env .orig) s

variable {s : Sub} {w : World} {cmps : List Comparator}

namespace Opening

/-- The environments where all variables have constants, and the flags of the end. -/
def scene (o : Opening cmps s s w) : Scene where
  env := o.w₂.env
  called side := (o.start.env side).called
  asked f := Comparator.calls ∈ cmps ∧ f ∈ PairRel.callees (o.w₂.env .orig) s

variable (o : Opening cmps s s w)

theorem ready₂ (hw : Matched w) (side : Side) : Ready s w o.w₂ side ∧
    (o.w₂.env side).called = (w.env side).called := by
  have hfirst := (snapshot_ok o.first_ok).1
  have hsecond := (snapshot_ok o.second_ok).1
  have hw₁ : o.w₁.env .mod = w.env .mod := hfirst.other (by decide)
  have hvars : varsOf (o.w₁.env .mod) s = varsOf (w.env .orig) s := by
    rw [varsOf, varsOf, hw₁, hw.arch]
  cases side with
  | orig =>
    have hw₂ : o.w₂.env .orig = o.w₁.env .orig := hsecond.other (by decide)
    obtain ⟨names, vars, inits, he⟩ := hfirst.env
    refine ⟨⟨⟨names, vars, inits, (w.env .orig).called, by rw [hw₂, he]⟩, fun {v} => ?_⟩, by rw [hw₂, he]⟩
    rw [hw₂, hfirst.bound, hw.vars]
    simp
  | mod =>
    obtain ⟨names, vars, inits, he⟩ := hsecond.env
    rw [hw₁] at he
    refine ⟨⟨⟨names, vars, inits, (w.env .mod).called, he⟩, fun {v} => ?_⟩, by rw [he]⟩
    rw [hsecond.bound, hw₁, hw.vars, ← hw₁, hvars]
    simp

theorem varsOf_eq (hw : Matched w) : varsOf (o.w₂.env .orig) s = varsOf (w.env .orig) s := by
  obtain ⟨_, _, _, _, he⟩ := (o.ready₂ hw .orig).1.env
  rw [varsOf, varsOf, he]

theorem serves (hw : Matched w) : o.scene.Serves s := by
  obtain ⟨_, _, _, _, he⟩ := (o.ready₂ hw .orig).1.env
  obtain ⟨_, _, _, _, he'⟩ := (o.ready₂ hw .mod).1.env
  have harch (side : Side) : (o.w₂.env side).arch = (w.env .orig).arch := by
    cases side with
    | orig => rw [he]
    | mod => rw [he', hw.arch]
  have hregs {v : Var} (hv : v ∈ (w.env .orig).arch.registers) : v ∈ varsOf (o.w₂.env .orig) s := by
    rw [o.varsOf_eq hw, varsOf]
    exact List.mem_eraseDups.mpr (List.mem_append_right _ hv)
  obtain ⟨hsp, hmem, -⟩ := Arch.registers_spec _ hw.known_arch
  exact {
    arch := (harch .mod).trans (harch .orig).symm
    subs := by
      show (o.w₂.env .mod).subs = (o.w₂.env .orig).subs
      rw [he, he', hw.subs]
    renames := fun side => by
      obtain ⟨_, _, _, _, he⟩ := (o.ready₂ hw side).1.env
      show (o.w₂.env side).renames = []
      rw [he, hw.renames]
    sp := fun side => hregs (show (o.w₂.env side).arch.sp ∈ _ by rw [harch]; exact hsp)
    mem := fun side => hregs (show (o.w₂.env side).arch.mem ∈ _ by rw [harch]; exact hmem)
    registers := fun {side v} hv => hregs (harch side ▸ hv)
    bound := fun {v} hv side =>
      Option.ne_none_iff_exists'.mp ((o.ready₂ hw side).1.bound.mpr (o.varsOf_eq hw ▸ hv)) }

/-- From the entries that are asked for on, the programs are at one level, and at one level all holds
that is asked for at the exits. -/
theorem levels (hw : Matched w) (hu : ∀ cmp ∈ cmps, ∃ b, o.scene.Usual s b cmp)
    (hrel : ∃ cmp ∈ cmps, o.scene.Usual s true cmp) : o.scene.At o.start ∧
      (o.post.Proper ∧ ∀ m, o.scene.Level s m → o.post.holds m = true) ∧
      o.entry.Proper ∧ ∀ m, o.entry.holds m = true → o.scene.Level s m := by
  have hS := o.serves hw
  have hat₂ : o.scene.At o.w₂ := ⟨fun side => ⟨_, _, rfl⟩, fun {side f p} hf => by
    rw [(o.ready₂ hw side).2, hw.called] at hf
    cases hf⟩
  have hposts := Scene.Usual.posts hS hu
  obtain ⟨hat₃, -⟩ := hposts.keeps hat₂ o.posts_ok
  have hjoin : o.scene.Still (fun c => ((∀ d ∈ o.posts, d.Proper) → c.Proper) ∧
      ∀ m, (∀ d ∈ o.posts, d.holds m = true) → c.holds m = true)
      (if o.posts = [] then Walk.trivial else conjoin o.posts) := by
    split
    · exact (Scene.Still.mkGoal ..).mono fun c hc => ⟨fun _ => hc.proper, fun m _ => (hc.holds m).mpr rfl⟩
    · exact (Scene.Still.conjoin _).mono fun c hc => ⟨hc.1, fun m => (hc.2 m).mpr⟩
  obtain ⟨henv₄, hproper, hholds⟩ := hjoin.run hat₃ o.post_ok
  have hat₄ := hjoin.keeps hat₃ o.post_ok
  have hhyp : o.scene.Query (List.Forall₂ (fun _ _ => True) cmps) (cmps.mapM fun cmp => cmp.hyp s s) :=
    .mapM fun cmp hcmp => let ⟨_, h⟩ := hu cmp hcmp; (h.hyp hS).mono fun _ _ => True.intro
  obtain ⟨hat₅, hgrows⟩ := hhyp.keeps hat₄ o.hyps_ok
  obtain ⟨henv, hentry⟩ := (Scene.Still.conjoin _).run hat₅ o.entry_ok
  have hat := (Scene.Still.conjoin _).keeps hat₅ o.entry_ok
  have hall := hposts.tells hat₂ o.posts_ok fun side => by
    have hg := hgrows side
    rw [henv₄, ← henv] at hg
    exact hg
  have hhyps := (Scene.Usual.hyps hS hu hrel (fun _ => Iff.rfl) fun _ _ _ => hat.asked).tells hat₄
    o.hyps_ok fun side => by
      rw [← henv]
      exact .refl _
  refine ⟨hat, ⟨hproper fun d hd => (hall d hd).1, fun m hm => hholds m fun d hd => (hall d hd).2 m hm⟩,
    hentry.1 fun d hd => ?_, fun m hm => hhyps.2 m fun c hc => ?_⟩
  · rcases List.mem_append.mp hd with hd | hd
    · exact (List.mem_append.mp hd).elim (hhyps.1 d) ((snapshot_ok o.first_ok).2 d)
    · exact (snapshot_ok o.second_ok).2 d hd
  · exact (hentry.2 m).mp hm c (List.mem_append_left _ (List.mem_append_left _ hc))

/-- The walks of both programs from here on. -/
def duo (hr : ∀ cmp ∈ cmps, cmp.Reads fun _ => False) (hw : Matched w) (spared : String → Bool)
    (preMod : Constr) : Duo where
  base := o.start.env
  sub := s
  spared := spared
  ret := preMod
  ret' := o.post
  tidy side := by
    obtain ⟨_, _, _, hb, hb', hb'', -⟩ := o.built hr
    exact (((hb.trans hb').trans hb'').later side).gives.tidy (hw.tidy side)

variable {hr : ∀ cmp ∈ cmps, cmp.Reads fun _ => False} {hw : Matched w} {spared : String → Bool}
  {preMod pre : Constr} {w₁ w₂ : World} {m : Model}

/-- At one level the second program shows the state of the first one. -/
theorem shows_iff (hat : o.scene.At o.start) :
    (o.duo hr hw spared preMod).mirror.Shows m m ↔ o.scene.Level s m := by
  have hvars (side : Side) : (o.start.env side).vars = (o.w₂.env side).vars := by
    obtain ⟨names, called, he⟩ := hat.env side
    rw [he]
    rfl
  constructor
  · refine fun hm => ⟨fun v _ => ?_, fun {f p q} hp hq => ?_⟩
    · have hv := hm.store v
      show (m.store (o.w₂.env .orig).vars v).Agrees (m.store (o.w₂.env .mod).vars v)
      rw [← hvars, ← hvars]
      exact hv
    · obtain ⟨n, rfl, -⟩ := ((o.duo hr hw spared preMod).tidy .orig).called hp
      obtain ⟨n', rfl, -⟩ := ((o.duo hr hw spared preMod).tidy .mod).called hq
      exact hm.tied ⟨f, hp, hq⟩
  · refine fun hm => ⟨rfl, fun v => ?_, ?_, fun _ _ => rfl⟩
    · show (m.store (o.start.env .orig).vars v).Agrees (m.store (o.start.env .mod).vars v)
      rw [hvars, hvars]
      by_cases hv : v ∈ varsOf (o.w₂.env .orig) s
      · exact hm.equal v hv
      · have hnone (side : Side) : (o.w₂.env side).vars.lookup v = none := by
          by_contra hne
          exact hv (o.varsOf_eq hw ▸ (o.ready₂ hw side).1.bound.mp hne)
        rw [Model.store, Model.store, hnone, hnone]
        exact .refl _
    · rintro n n' ⟨f, hp, hq⟩
      exact hm.called hp hq

theorem ready (hw : Matched w) (hat : o.scene.At o.start) (side : Side) : Ready s w o.start side := by
  obtain ⟨names, called, he⟩ := hat.env side
  obtain ⟨⟨⟨names', vars, inits, called', he'⟩, hbound⟩, -⟩ := o.ready₂ hw side
  refine ⟨⟨names, vars, inits, called, ?_⟩, fun {v} => ?_⟩
  · exact he.trans (congrArg (fun e : Env => { e with names, called }) he')
  · rw [he]
    exact hbound

theorem facing (hat : o.scene.At o.start) :
    (o.duo hr hw spared preMod).Facing (o.start.env .orig) (o.start.env .mod) := by
  have hfollows (side : Side) : (o.duo hr hw spared preMod).Follows side (o.start.env side) := by
    obtain ⟨_, _, _, _, he⟩ := (o.ready hw hat side).env
    refine ⟨rfl, rfl, rfl, .refl _, .refl _, fun h => ?_, fun h => ?_⟩
    · rw [he, hw.funcs] at h
      cases h
    · rw [he, hw.handlers] at h
      cases h
  obtain ⟨_, _, _, _, he⟩ := (o.ready hw hat .orig).env
  obtain ⟨_, _, _, _, he'⟩ := (o.ready hw hat .mod).env
  refine ⟨hfollows .orig, hfollows .mod, fun n => ?_, fun t => ?_, ?_⟩
  · rw [he, he', hw.funcs, hw.funcs]
  · rw [he, he', hw.handlers, hw.handlers]
  · rw [he, he', hw.frame, hw.frame]
    refine ⟨rfl, nofun, rfl, rfl, .none, fun _ => .none, fun c => ?_⟩
    show Option.Rel _ (Frame.start.preconds[c]?) (Frame.start.preconds[c]?)
    rw [show Frame.start.preconds[c]? = none from Std.HashMap.getElem?_empty]
    exact .none

/-- At one level the precondition of the first program for that of the second one holds, apart from
the goals that are spared. -/
theorem closes (hat : o.scene.At o.start) (hD : (o.duo hr hw spared preMod).Fair)
    (hproper : o.post.Proper) (hpost : ∀ m, o.scene.Level s m → o.post.holds m = true)
    (hapart : ∀ n t, (o.duo hr hw spared preMod).mirror.Owns .orig n t →
      ¬ (o.duo hr hw spared preMod).mirror.Owns .mod n t)
    (hmod : visitSub .mod o.post s o.start = .ok preMod w₁)
    (horig : visitSub .orig preMod s w₁ = .ok pre w₂) :
    pre.Proper ∧ ∀ m, o.scene.Level s m → (pre.spare spared).holds m = true := by
  have hw₁ : w₁.env .orig = o.start.env .orig := visitSub_other (hD.isLocal .mod) hmod nofun
  have hroot (side : Side) : (o.start.env side).frame.root = none := by
    obtain ⟨_, _, _, _, he⟩ := (o.ready hw hat side).env
    rw [he, hw.frame]
    rfl
  have hpair : (o.duo hr hw spared preMod).Pair pre preMod :=
    Duo.visitSub_pair hD .returned (hw₁ ▸ o.facing hat) (hw₁ ▸ hroot .orig) (hroot .mod) horig hmod
  refine ⟨hpair.proper (hpair.proper' hproper), fun m hm => ?_⟩
  refine hpair.closed hapart (fun m hm => ?_) ((o.shows_iff hat).mpr hm)
  exact Constr.holds_spare _ (hpost m ((o.shows_iff hat).mp hm))

end Opening

end Precond.Compare

namespace Precond

open IR Walk

/-- The options give no texts, name no rules or subroutines, and relate reads at the same addresses
only. -/
structure Options.Plain (o : Options) : Prop where
  precond : o.precond = ""
  postcond : o.postcond = ""
  tripAsserts : o.tripAsserts = false
  inline : o.inline = none
  memOffset : o.memOffset = none
  rewriteAddresses : o.rewriteAddresses = false
  renames : o.renames = []
  contracts : o.contracts = []
  rules : o.rules = []

namespace Analysis

variable {p : Program} {o : Options} {f : Sub} {w w' : World} {cmps : List Comparator}

/-- The environment that a program is analysed from. -/
def plainEnv (p : Program) (o : Options) (role : Role) : Env :=
  { Env.start p.arch p.subs with
    sideRules := sideRules o role
    unrollBound := o.unrollBound
    freshen := decide (role = .mod)
    useInputRegs := o.useInputRegs
    stack := o.stackRange.getD Limits.stack
    heap := o.heapRange.getD Limits.heap
    names := ⟨if decide (role = .mod) then some modSpace else none, 0⟩ }

/-- The world that a program is compared with itself from. -/
def plainStart (p : Program) (o : Options) : World :=
  World.start (plainEnv p o .orig) (plainEnv p o .mod)

theorem environment_eq (ho : o.Plain) (role : Role) :
    environment p o role [] = .ok (plainEnv p o role) := by
  unfold environment inlined rules
  rw [ho.inline, ho.contracts, ho.tripAsserts, ho.rules]
  rfl

theorem renames_eq (ho : o.Plain) (orig mod : Program) : renames o orig mod = [] := by
  rw [renames, ho.rewriteAddresses, ho.renames]
  rfl

/-- A program compared with itself. -/
theorem setup_self {s : Setup} (ho : o.Plain) (h : setup o [p, p] = .ok (s, w)) :
    ∃ f cmps w₁, p.find? o.func = some f ∧ comparators o f f (plainStart p o) = .ok cmps w₁ ∧
      Compare.subs cmps f f w₁ = .ok s.pre w := by
  obtain ⟨_, -, h⟩ := bind_eq_ok h
  obtain ⟨f, hf, h⟩ := bind_eq_ok h
  obtain ⟨f', hf', h⟩ := bind_eq_ok h
  cases hf.symm.trans hf'
  obtain ⟨e, he, h⟩ := bind_eq_ok h
  cases (environment_eq ho _).symm.trans he
  obtain ⟨e', he', h⟩ := bind_eq_ok h
  rw [renames_eq ho] at he'
  cases (environment_eq ho _).symm.trans he'
  rw [ho.memOffset] at h
  have hstart : World.start { plainEnv p o .orig with sideRules := (plainEnv p o .orig).sideRules ++ [] }
      (plainEnv p o .mod) = plainStart p o := by
    rw [List.append_nil]
    rfl
  dsimp only at h
  rw [hstart] at h
  unfold build at h
  split at h
  · rename_i pre w₁ hpre
    cases h
    obtain ⟨cmps, w₂, hcmps, hsubs⟩ := bind_ok hpre
    refine ⟨f, cmps, w₂, ?_, hcmps, hsubs⟩
    unfold findSub at hf
    cases hfind : p.find? o.func with
    | some g =>
      rw [hfind] at hf
      exact congrArg some (Except.ok.inj hf)
    | none =>
      rw [hfind] at hf
      cases hf
  · cases h

theorem sharedVars_self (hw : Compare.Matched w) {vars : List Var}
    (h : PairRel.sharedVars f f w = .ok vars w') : w' = w ∧ vars = varsOf (w.env .orig) f := by
  cases h
  refine ⟨rfl, List.filter_eq_self.mpr fun v hv => List.contains_iff_mem.mpr ?_⟩
  rw [varsOf] at hv ⊢
  rwa [hw.arch]

theorem outputs_ok {found : List Var} (h : outputs o f w = .ok found w') :
    w' = w ∧ found ⊆ varsOf (w.env .orig) f := by
  obtain ⟨e, w₁, he, h₁⟩ := bind_ok h
  obtain ⟨rfl, rfl⟩ := env_ok he
  dsimp only at h₁
  split at h₁
  · cases h₁
    exact ⟨rfl, List.filter_subset_self _⟩
  · cases h₁

/-- The comparators of a comparison with itself, of which at least one asks for equal inputs. -/
theorem comparators_usual (ho : o.Plain) (hw : Compare.Matched w)
    (h : comparators o f f w = .ok cmps w') : w' = w ∧
      ∀ {S : Scene}, varsOf (S.env .orig) f = varsOf (w.env .orig) f →
        (Comparator.calls ∈ cmps → ∀ g ∈ PairRel.callees (S.env .orig) f, S.asked g) →
        (∀ cmp ∈ cmps, ∃ b, S.Usual f b cmp) ∧ ∃ cmp ∈ cmps, S.Usual f true cmp := by
  obtain ⟨rel, hrel, rfl, rfl⟩ : ∃ rel : List Comparator,
      (∀ cmp ∈ rel, cmp = .calls ∨
        ∃ post ⊆ varsOf (w.env .orig) f, cmp = .registers (varsOf (w.env .orig) f) post) ∧
      w' = w ∧ cmps = [.stackPointers, .memories] ++ rel ++
        (if o.pointerRegs.isEmpty then [] else [.pointers o.pointerRegs]) ++
        if rel.isEmpty then [.emptyPost] else [] := by
    unfold comparators at h
    dsimp only at h
    rw [ho.precond, ho.postcond, ho.memOffset] at h
    have hcalls : ∀ cmp ∈ if o.compareFuncCalls then [Comparator.calls] else [], cmp = .calls := by
      split
      · exact fun _ => List.mem_singleton.mp
      · exact nofun
    split at h
    · cases h
      refine ⟨(if o.compareFuncCalls then [.calls] else []) ++ [] ++ [],
        fun cmp hcmp => .inl (hcalls cmp ?_), rfl, rfl⟩
      rwa [List.append_nil, List.append_nil] at hcmp
    · obtain ⟨vars, w₁, hvars, h₁⟩ := bind_ok h
      obtain ⟨rfl, rfl⟩ := sharedVars_self hw hvars
      obtain ⟨post, w₂, hpost, h₂⟩ := bind_ok h₁
      obtain ⟨rfl, hsub⟩ := outputs_ok hpost
      cases h₂
      refine ⟨(if o.compareFuncCalls then [.calls] else []) ++
        [.registers (varsOf (w'.env .orig) f) post] ++ [], fun cmp hcmp => ?_, rfl, rfl⟩
      rw [List.append_nil] at hcmp
      rcases List.mem_append.mp hcmp with hcmp | hcmp
      · exact .inl (hcalls cmp hcmp)
      · exact .inr ⟨post, hsub, List.mem_singleton.mp hcmp⟩
  refine ⟨rfl, fun {S} hvars hasked => ?_⟩
  have hrel' : ∀ cmp ∈ rel, S.Usual f true cmp := by
    intro cmp hcmp
    rcases hrel cmp hcmp with rfl | ⟨post, hpost, rfl⟩
    · exact .calls (hasked (by simp [hcmp]))
    · rw [← hvars] at hpost ⊢
      exact .registers hpost
  constructor
  · intro cmp hcmp
    simp only [List.mem_append, List.mem_cons, List.not_mem_nil, or_false] at hcmp
    rcases hcmp with (((rfl | rfl) | hcmp) | hcmp) | hcmp
    · exact ⟨_, .stackPointers⟩
    · exact ⟨_, .memories⟩
    · exact ⟨_, hrel' cmp hcmp⟩
    · split at hcmp
      · cases hcmp
      · cases List.mem_singleton.mp hcmp
        exact ⟨_, .pointers⟩
    · split at hcmp
      · cases List.mem_singleton.mp hcmp
        exact ⟨_, .emptyPost⟩
      · cases hcmp
  · cases rel with
    | nil => exact ⟨.emptyPost, by simp, .emptyPost⟩
    | cons cmp rel => exact ⟨cmp, by simp, hrel' cmp List.mem_cons_self⟩

theorem matched (h : p.arch ∈ Arch.all) : Compare.Matched (plainStart p o) where
  known_arch := h
  arch := rfl
  subs := rfl
  renames side := by cases side <;> rfl
  tidy side := by cases side <;> exact ⟨nofun, nofun, nofun, nofun⟩
  vars side := by cases side <;> rfl
  called side := by cases side <;> rfl
  funcs side := by cases side <;> rfl
  handlers side := by cases side <;> rfl
  frame side := by cases side <;> rfl

end Analysis

end Precond
