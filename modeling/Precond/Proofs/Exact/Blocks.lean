import Mathlib.Data.List.TakeWhile
import Precond.Proofs.Compare.Named

/-! Two blocks compared by themselves, and as the only blocks of two subroutines. -/

namespace Precond

open IR Precond.Flow Walk

/-- A blank text is no formula. -/
theorem Smt.assertions_blank {text : String} (h : Compare.isBlankText text = true) (d : Decls) :
    assertions d text = none := by
  have htrim : Text.trim Text.isMargin text.toList = [] := by
    have hdrop : text.toList.dropWhile Text.isMargin = [] :=
      List.dropWhile_eq_nil_iff.mpr fun c hc => List.all_eq_true.mp h c hc
    rw [Text.trim, hdrop]
    rfl
  have hscript : (if startsWith "(assert".toList [] then String.ofList []
      else "(assert " ++ String.ofList [] ++ ")") = "(assert )" := by decide
  have hdata : data? "(assert )" = some [.list [.atom (.symbol "assert")]] := by rfl
  unfold assertions
  rw [htrim]
  dsimp only
  rw [hscript, hdata]
  split
  · rfl
  · rfl

/-- A text that can be read is not blank. -/
theorem World.Reads.filled {w : World} {text : String} (h : w.Reads text) :
    Compare.isBlankText text = false := by
  obtain ⟨ps, hps⟩ := h
  rw [← Bool.not_eq_true]
  intro hblank
  cases (Smt.assertions_blank hblank _).symm.trans hps

namespace Compare

variable {K : Constr → Prop} {w w' : World} {c : Constr} {pre post : List Var} {orig mod : Blk}
  {postText hypText name name' tid tid' : String} {sub sub' : Sub}

/-- Registers are compared, and texts. -/
def asking (pre post : List Var) (postText hypText : String) : List Comparator :=
  [.registers pre post, .formulas postText hypText]

theorem asking_reads : ∀ cmp ∈ asking pre post postText hypText, cmp.Reads K := by
  intro cmp hcmp
  rcases List.mem_cons.mp hcmp with rfl | hcmp
  · exact Comparator.reads_registers ..
  · exact List.mem_singleton.mp hcmp ▸ Comparator.reads_formulas ..

theorem mapM_pair {α β : Type} {f : α → Walk β} {x y : α} {bs : List β}
    (h : [x, y].mapM f w = .ok bs w') :
    ∃ a b w₁, bs = [a, b] ∧ f x w = .ok a w₁ ∧ f y w₁ = .ok b w' := by
  rw [List.mapM_cons] at h
  obtain ⟨a, w₁, ha, h⟩ := bind_ok h
  obtain ⟨bs', w₂, hbs, h⟩ := bind_ok h
  cases h
  obtain ⟨b, rfl, hb⟩ := mapM_single hbs
  exact ⟨a, b, w₁, rfl, ha, hb⟩

/-- What is asked of a model: at the exits where the registers of the exits have constants, and then at
the entries. -/
structure Opening.Asked (o : Opening (asking pre post postText hypText) sub sub' w) (u : World) :
    Prop where
  exits : o.w₂.Compares post u
  entries : u.Compares pre o.start
  before (side : Side) : (o.w₂.env side).Later False (u.env side)
  later (side : Side) : (u.env side).Later False (o.start.env side)
  reads : u.Reads postText
  entry_reads : o.start.Reads hypText
  post_truth (m : Model) : o.post.truth m = true ↔ u.Asks post postText m
  hyps_truth (m : Model) : (∀ d ∈ o.hyps, d.truth m = true) ↔ o.start.Asks pre hypText m

theorem Opening.asked (o : Opening (asking pre post postText hypText) sub sub' w) :
    ∃ u, o.Asked u := by
  -- the comparators are asked one after the other
  obtain ⟨outputs, posts, u₁, hposts, houtputs, hpost⟩ := mapM_pair o.posts_ok
  obtain ⟨inputs, hyps, u₂, hhyps, hinputs, hhyp⟩ := mapM_pair o.hyps_ok
  obtain ⟨hexits, hmout⟩ := PairRel.equalVars_ok houtputs
  obtain ⟨hentries, hmin⟩ := PairRel.equalVars_ok hinputs
  obtain ⟨he₃, hreads, hmpost⟩ := (Scene.Still.formulaForBoth postText).run u₁.scene_at hpost
  obtain ⟨he₅, hreads', hmhyp⟩ := (Scene.Still.formulaForBoth hypText).run u₂.scene_at hhyp
  have hjoin := o.post_ok
  rw [hposts, if_neg (List.cons_ne_nil _ _)] at hjoin
  obtain ⟨he₄, -⟩ := (Scene.Still.conjoin _).run o.w₃.scene_at hjoin
  obtain ⟨he₆, -⟩ := (Scene.Still.conjoin _).run o.w₅.scene_at o.entry_ok
  have hsame (side : Side) : o.w₄.env side = u₁.env side := (he₄ side).trans (he₃ side)
  have hsame' (side : Side) : o.start.env side = u₂.env side := (he₆ side).trans (he₅ side)
  have hasks {u : World} {v : List Var} {t : String} {m : Model} (hr : u.Reads t) :
      u.Asks v t m ↔ u.scene.Equal v m ∧ u.Tells t m :=
    ⟨fun h => ⟨h.equal, h.text hr.filled⟩, fun h => ⟨h.1, fun _ => h.2⟩⟩
  refine ⟨u₁, hexits, ?_, (PairRel.builds_equalVars post _).later houtputs, fun side => ?_, hreads, ?_,
    fun m => ?_, fun m => ?_⟩
  · exact (((World.Compares.of_env hsame).trans hentries).trans (.of_env hsame')).congr fun _ => by simp
  · rw [hsame', ← hsame]
    exact (PairRel.builds_equalVars pre _).later hinputs side
  · obtain ⟨ps, hps⟩ := hreads'
    exact ⟨ps, World.declared_congr hsame' ▸ hps⟩
  · have hformal : ∀ d ∈ [outputs, posts], d.Formal := List.forall_mem_cons.mpr
      ⟨hmout.proper.formal, List.forall_mem_singleton.mpr hmpost.proper.formal⟩
    rw [conjoin_truth hformal hjoin, List.forall_mem_cons, List.forall_mem_singleton, hmout.truth,
      hmpost.truth, hasks hreads]
  · rw [hhyps, List.forall_mem_cons, List.forall_mem_singleton, hmin.truth, hmhyp.truth,
      World.asks_congr hsame', hasks hreads']

/-- The comparison of two subroutines of one block each. -/
theorem Opening.Asked.truth {o : Opening (asking pre post postText hypText) (orig.alone name tid)
    (mod.alone name' tid') w} {u : World} (hu : o.Asked u) {preMod preOrig : Constr} {w₁ w₂ : World}
    (ho : orig.Linear) (hm : mod.Linear) (hd : ∀ side, Default side w) (hK : Constr.Ledger K w.nodes)
    (hroot : ∀ side, (w.env side).frame.root = none)
    (hmod : visitSub .mod o.post (mod.alone name' tid') o.start = .ok preMod w₁)
    (horig : visitSub .orig preMod (orig.alone name tid) w₁ = .ok preOrig w₂) :
    (∀ side, (o.start.env side).Later False (World.env { w₂ with nodes := w₂.nodes + 1 } side)) ∧
      (∃ K', Constr.Ledger K' (w₂.nodes + 1) ∧ K' (.clause w₂.nodes [o.entry] [preOrig])) ∧
      (Apart { w₂ with nodes := w₂.nodes + 1 } → ∀ m, ∃ m',
        Ran { w₂ with nodes := w₂.nodes + 1 } orig.defs mod.defs m m' ∧
          ((Constr.clause w₂.nodes [o.entry] [preOrig]).truth m = true ↔
            (o.start.Asks pre hypText m ∧
              m.Recalls (w₂.env .orig).vars (w₂.env .orig).inits
                (varsOf (w.env .orig) (orig.alone name tid)) ∧
              m.Recalls (w₂.env .mod).vars (w₂.env .mod).inits
                (varsOf (w.env .mod) (mod.alone name' tid')) → u.Asks post postText m'))) := by
  obtain ⟨K₂, K₃, K₄, hb₂, hb₃, hb₄, -, hkpost, -, hkentry⟩ := o.built (K := K) asking_reads
  have hb := (hb₂.trans hb₃).trans hb₄
  have hd₁ (side : Side) : Default side o.start := (hd side).later (hb.later side)
  have hroot₁ (side : Side) (t : String) (n : Nat) :
      (o.start.env side).frame.root ≠ some (t, n) := by
    rw [(hb.stays side).frame, hroot]
    nofun
  obtain ⟨K₅, hw₁, hk₁, hbefore⟩ := visitSub_single hm (hd₁ .mod) (hb.ledger hK) hkpost
    (hroot₁ .mod _ _) hmod
  have horig₁ : w₁.env .orig = o.start.env .orig := hw₁.other nofun
  have hl₁ : (w.env .orig).Later False (w₁.env .orig) := horig₁ ▸ hb.later .orig
  obtain ⟨K₆, hw₂, hk₂, hbefore'⟩ := visitSub_single ho ((hd .orig).later hl₁)
    (hw₁.ledger (hb.ledger hK)) hk₁ (by rw [horig₁]; exact hroot₁ .orig _ _) horig
  obtain ⟨hlater, hledger, htruth⟩ := walks_truth hd₁ (hb.ledger hK) hw₁ hbefore hw₂ hbefore' (.refl ..) hk₂
    (hw₂.grows (hw₁.grows hkentry))
  refine ⟨hlater, hledger, fun ha m => ?_⟩
  obtain ⟨m', hran, hiff⟩ := htruth ha m
  refine ⟨m', hran, hiff.trans ?_⟩
  rw [hu.post_truth, o.entry_truth (K := K) asking_reads hK m (hlater .orig).vars (hlater .orig).inits
    (hlater .mod).vars (hlater .mod).inits, hu.hyps_truth]
  rfl

/-! ### Both comparisons -/

/-- The worlds of a comparison of two blocks: the entries are asked about in one, the exits in an earlier
one, and the walks end in the last one. Variables of some kind only have constants. -/
structure Stage (P : Var → Prop) (pre post : List Var) (orig mod : Blk) (entries exits last : World) :
    Prop where
  within : entries.Within P
  orderly : entries.Orderly
  exits_orderly : exits.Orderly
  vars (side : Side) : Table.Grows (exits.env side).vars (entries.env side).vars
  inits (side : Side) : Table.Grows (exits.env side).inits (entries.env side).inits
  last_vars (side : Side) : Table.Grows (entries.env side).vars (last.env side).vars
  last_inits (side : Side) : Table.Grows (entries.env side).inits (last.env side).inits
  pre : ∀ v ∈ pre, entries.scene.Bound v
  post : ∀ v ∈ post, exits.scene.Bound v
  orig : ∀ v ∈ orig.vars, (entries.env .orig).vars.lookup v ≠ none
  mod : ∀ v ∈ mod.vars, (entries.env .mod).vars.lookup v ≠ none

/-- The values of variables that definitions read. -/
theorem freeVars_mem {b : Blk} {d : Def} {v : Var} (hd : d ∈ b.defs) (hv : v ∈ d.rhs.freeVars) :
    v ∈ b.vars := by
  refine List.mem_flatMap.mpr ⟨.define d, ?_, List.mem_cons_of_mem _ hv⟩
  exact List.mem_append_left _ (List.mem_append_right _ (List.mem_map.mpr ⟨d, hd, rfl⟩))

variable {P : Var → Prop} {u z u' z' : World} {m n m' n' : Model} {entries : Prop}

/-- Both comparisons ask for the same of models that match. -/
theorem Stage.transfer (s : Stage P pre post orig mod w u z) (s' : Stage P pre post orig mod w' u' z')
    (hP : Telling P) (hk : orig.defs.all (·.rhs.known)) (hk' : mod.defs.all (·.rhs.known))
    (hmatch : w.Match entries w' m m') (ht : entries ∨ Smt.Entryless postText)
    (ht' : entries ∨ Smt.Entryless hypText)
    (hpost : isBlankText postText = false → u.Reads postText)
    (hpost' : isBlankText postText = false → u'.Reads postText)
    (hhyp : isBlankText hypText = false → w.Reads hypText)
    (hhyp' : isBlankText hypText = false → w'.Reads hypText)
    (hr : Ran z orig.defs mod.defs m n) (hr' : Ran z' orig.defs mod.defs m' n') :
    (w.Asks pre hypText m ↔ w'.Asks pre hypText m') ∧
      (u.Asks post postText n ↔ u'.Asks post postText n') := by
  have hend : w.Match entries w' n n' := hr.match hr' hmatch s.last_vars s.last_inits s'.last_vars
    s'.last_inits hk hk'
    (fun d hd v hv => ⟨s.orig v (freeVars_mem hd hv), s'.orig v (freeVars_mem hd hv)⟩)
    (fun d hd v hv => ⟨s.mod v (freeVars_mem hd hv), s'.mod v (freeVars_mem hd hv)⟩)
  have hexits : u.Match entries u' n n' :=
    ⟨fun side ht ht' => hend.vars side (s.vars side _ _ ht) (s'.vars side _ _ ht'),
      fun side he ht ht' => hend.inits side he (s.inits side _ _ ht) (s'.inits side _ _ ht')⟩
  have hwithin {w u z : World} (s : Stage P pre post orig mod w u z) : u.Within P :=
    ⟨fun side hv => s.within.vars side (s.vars side _ _ hv),
      fun side hv => s.within.inits side (s.inits side _ _ hv)⟩
  exact ⟨hmatch.asks_iff hP s.within s'.within s.orderly s'.orderly ht' s.pre s'.pre hhyp hhyp',
    hexits.asks_iff hP (hwithin s) (hwithin s') s.exits_orderly s'.exits_orderly ht s.post s'.post hpost
      hpost'⟩

/-- Values at entry that are recalled in one world are so in the other one, in a model that matches, if
those that the first world does not know are values of variables. -/
theorem recalls_of_match {list list' entry entry' : Side → List Var} (hw : w.Notes list entry)
    (hw' : w'.Notes list' entry') (hsub : ∀ side, ∀ v ∈ entry side, v ∈ list side)
    (hsub' : ∀ side, ∀ v ∈ entry' side, v ∈ list' side) (hmatch : w.Match True w' m m')
    (hnew : ∀ side v t i, (w'.env side).vars.lookup v = some t →
      (w'.env side).inits.lookup v = some i → (w.env side).inits.lookup v = none →
        i.value m' = t.value m')
    (hz : ∀ side, (w.env side).Later False (z.env side))
    (hz' : ∀ side, (w'.env side).Later False (z'.env side))
    (h : ∀ side, m.Recalls (z.env side).vars (z.env side).inits (entry side)) (side : Side) :
    m'.Recalls (z'.env side).vars (z'.env side).inits (entry' side) := by
  intro v hv
  obtain ⟨t', ht'⟩ := Option.ne_none_iff_exists'.mp ((hw'.vars side).mpr (hsub' side v hv))
  obtain ⟨i', hi'⟩ := Option.ne_none_iff_exists'.mp ((hw'.inits side).mpr hv)
  refine .mk ((hz' side).vars _ _ ht') ((hz' side).inits _ _ hi') ?_
  cases hi : (w.env side).inits.lookup v with
  | none =>
    rw [hnew side v t' i' ht' hi' hi]
    exact .refl _
  | some i =>
    have hmem := (hw.inits side).mp (hi ▸ Option.some_ne_none i)
    obtain ⟨t, ht⟩ := Option.ne_none_iff_exists'.mp ((hw.vars side).mpr (hsub side v hmem))
    obtain ⟨ht₁, hi₁, hagrees⟩ := h side v hmem
    cases ht₁.symm.trans ((hz side).vars _ _ ht)
    cases hi₁.symm.trans ((hz side).inits _ _ hi)
    rwa [hmatch.vars side ht ht', hmatch.inits side True.intro hi hi'] at hagrees

/-- In some model the variables have their values, and the values at entry are those. -/
theorem Distinct.exists_entry {list entry : Side → List Var} (hd : Distinct w)
    (hw : w.Notes list entry) (hsub : ∀ side, ∀ v ∈ entry side, v ∈ list side)
    (hz : ∀ side, (w.env side).Later False (z.env side)) (m : Model) : ∃ m', w.Match False w m m' ∧
      ∀ side, m'.Recalls (z.env side).vars (z.env side).inits (entry side) := by
  have htyped (side : Side) : Store.Typed (m.over (w.env side).vars someStore) :=
    typed_someStore.over (fun v t s hv hs => ((hw.tidy side).vars hv).sort hs) m
  obtain ⟨m', hm'⟩ := hd.exists_model hw.tidy htyped htyped m
  refine ⟨m', ⟨fun {v t t'} side ht ht' => ?_, fun _ h => h.elim⟩, fun side v hv => ?_⟩
  · rw [(hm' side).1 v t' ht', Model.over_of_lookup ht]
  · obtain ⟨t, ht⟩ := Option.ne_none_iff_exists'.mp ((hw.vars side).mpr (hsub side v hv))
    obtain ⟨i, hi⟩ := Option.ne_none_iff_exists'.mp ((hw.inits side).mpr hv)
    refine .mk ((hz side).vars _ _ ht) ((hz side).inits _ _ hi) ?_
    rw [(hm' side).1 v t ht, (hm' side).2 v i hi]
    exact .refl _

/-- What is noted for the first program, and what for the second one. -/
def sides (x y : List Var) : Side → List Var
  | .orig => x
  | .mod => y

theorem Alone.notes (a : Alone K pre post orig mod postText hypText w) (hw : w.Fresh) :
    a.w₂.Notes (sides (noted orig pre post) (noted mod pre post))
      (sides (noted orig pre post) (noted mod pre post)) :=
  hw.notes a.first_ok a.second_ok

theorem Opening.notes {cmps : List Comparator} (o : Opening cmps sub sub' w) (hw : w.Fresh) :
    o.w₂.Notes (sides (varsOf (w.env .orig) sub) (varsOf (w.env .mod) sub'))
      (sides (varsOf (w.env .orig) sub) (varsOf (w.env .mod) sub')) := by
  have hmod : o.w₁.env .mod = w.env .mod := (snapshot_ok o.first_ok).1.other nofun
  have hsecond := o.second_ok
  rw [hmod] at hsecond
  exact hw.notes o.first_ok hsecond

/-- A subroutine that has one block has its variables, and registers are noted too. -/
theorem mem_varsOf_alone {e : Env} {b : Blk} {v : Var} :
    v ∈ varsOf e (b.alone name tid) ↔ v ∈ b.vars ∨ v ∈ e.arch.registers := by
  rw [varsOf, List.mem_eraseDups, List.mem_append, Sub.vars, List.mem_eraseDups]
  simp [Blk.alone]

theorem Alone.stage (a : Alone K pre post orig mod postText hypText w) (hw : w.Fresh)
    (hl : ∀ side, (a.w₂.env side).Later False (w'.env side)) :
    Stage (Mentions w pre post orig mod) pre post orig mod a.w₂ a.w₂ w' := by
  have hn := a.notes hw
  have hmentions : ∀ side, ∀ v ∈ sides (noted orig pre post) (noted mod pre post) side,
      Mentions w pre post orig mod v
    | .orig, _, hv => (mem_noted.mp hv).elim .orig (·.elim .pre .post)
    | .mod, _, hv => (mem_noted.mp hv).elim .mod (·.elim .pre .post)
  have hmem {v : Var} (hv : v ∈ pre ∨ v ∈ post) :
      ∀ side, v ∈ sides (noted orig pre post) (noted mod pre post) side
    | .orig | .mod => mem_noted.mpr (.inr hv)
  exact {
    within := hn.within hmentions hmentions
    orderly := hn.orderly
    exits_orderly := hn.orderly
    vars := fun _ => .refl _
    inits := fun _ => .refl _
    last_vars := fun side => (hl side).vars
    last_inits := fun side => (hl side).inits
    pre := fun v hv => hn.bound (hmem (.inl hv))
    post := fun v hv => hn.bound (hmem (.inr hv))
    orig := fun v hv => (hn.vars .orig).mpr (mem_noted.mpr (.inl hv))
    mod := fun v hv => (hn.vars .mod).mpr (mem_noted.mpr (.inl hv)) }

/-- The variables that have constants when the exits, and then the entries, have been asked about. -/
theorem Opening.Asked.notes {o : Opening (asking pre post postText hypText) sub sub' w} {u : World}
    (hu : o.Asked u) (hw : w.Fresh) :
    u.Notes (fun side => post ++ sides (varsOf (w.env .orig) sub) (varsOf (w.env .mod) sub') side)
        (sides (varsOf (w.env .orig) sub) (varsOf (w.env .mod) sub')) ∧
      o.start.Notes (fun side => pre ++ (post ++
          sides (varsOf (w.env .orig) sub) (varsOf (w.env .mod) sub') side))
        (sides (varsOf (w.env .orig) sub) (varsOf (w.env .mod) sub')) :=
  have hn := (o.notes hw).compares hu.exits hu.before
  ⟨hn, hn.compares hu.entries hu.later⟩

theorem Opening.Asked.stage {o : Opening (asking pre post postText hypText) (orig.alone name tid)
    (mod.alone name' tid') w} {u : World} (hu : o.Asked u) (hw : w.Fresh)
    (hl : ∀ side, (o.start.env side).Later False (w'.env side)) :
    Stage (Mentions w pre post orig mod) pre post orig mod o.start u w' := by
  obtain ⟨hn, hn'⟩ := hu.notes hw
  have hregister {side : Side} {v : Var} (hv : v ∈ (w.env side).arch.registers) :
      Mentions w pre post orig mod v := .arch side (by simp [conventional, hv])
  have hvars : ∀ side, ∀ v ∈ sides (varsOf (w.env .orig) (orig.alone name tid))
      (varsOf (w.env .mod) (mod.alone name' tid')) side, Mentions w pre post orig mod v := by
    intro side v hv
    cases side with
    | orig => exact (mem_varsOf_alone.mp hv).elim .orig hregister
    | mod => exact (mem_varsOf_alone.mp hv).elim .mod hregister
  refine {
    within := hn'.within (fun side v hv => ?_) hvars
    orderly := hn'.orderly
    exits_orderly := hn.orderly
    vars := fun side => (hu.later side).vars
    inits := fun side => (hu.later side).inits
    last_vars := fun side => (hl side).vars
    last_inits := fun side => (hl side).inits
    pre := fun v hv => hn'.bound fun _ => List.mem_append_left _ hv
    post := fun v hv => hn.bound fun _ => List.mem_append_left _ hv
    orig := fun v hv => (hn'.vars .orig).mpr
      (List.mem_append_right _ (List.mem_append_right _ (mem_varsOf_alone.mpr (.inl hv))))
    mod := fun v hv => (hn'.vars .mod).mpr
      (List.mem_append_right _ (List.mem_append_right _ (mem_varsOf_alone.mpr (.inl hv)))) }
  rcases List.mem_append.mp hv with hv | hv
  · exact .pre hv
  rcases List.mem_append.mp hv with hv | hv
  · exact .post hv
  · exact hvars side v hv

/-- In the end all constants are different ones, as the walks ask for variables of the programs only. -/
theorem distinct_last {start last : World} {x y : Walk Constr} {c c' : Constr} {w₁ : World}
    (hw : w.Fresh) (hn : w.Freshened (Mentions w pre post orig mod))
    (hlabels : ∀ side, (w.env side).Labels (start.env side))
    (hl : ∀ side, (w.env side).Later False (last.env side))
    (hwithin : start.Within (Mentions w pre post orig mod))
    (hx : Respects .mod [] (mentioned w pre post orig mod) (Making fun _ => mentioned w pre post orig mod) x)
    (hy : Respects .orig [] (mentioned w pre post orig mod) (Making fun _ => mentioned w pre post orig mod) y)
    (hc : x start = .ok c w₁) (hd : y w₁ = .ok c' w') (hlast : ∀ side, last.env side = w'.env side) :
    Distinct last := by
  have hrules (side : Side) : (start.env side).sideRules = [] := by
    obtain ⟨names, vars, inits, he⟩ := hlabels side
    rw [he]
    exact hw.sideRules side
  have hw' := walks_within hrules (fun side => mentioned_governs hw (hlabels side)) hx hy hc hd hwithin
  exact hn.distinct (fun side => (hl side).gives) (fun side => (hl side).gives.tidy (hw.tidy side))
    (hw'.congr hlast)

theorem Alone.distinct (a : Alone K pre post orig mod postText hypText w) (hw : w.Fresh)
    (hn : w.Freshened (Mentions w pre post orig mod))
    (hl : ∀ side, (a.w₂.env side).Later False (a.last.env side)) : Distinct a.last := by
  have hlabels (side : Side) : (w.env side).Labels (a.start.env side) := by
    rw [a.env]
    exact ((snapshot_ok a.first_ok).1.labels side).trans ((snapshot_ok a.second_ok).1.labels side)
  have hlater (side : Side) : (w.env side).Later False (a.last.env side) :=
    (a.built.later side).trans (a.env side ▸ hl side)
  obtain ⟨he, -⟩ := (Scene.Still.conjoin _).run a.w₄.scene_at a.hyp_ok
  exact distinct_last hw hn hlabels hlater ((a.stage hw hl).within.congr a.env)
    (respects_visitBlockAlone _ (mentioned_covers (fun _ => .mod) "" "").1)
    (respects_visitBlockAlone _ (mentioned_covers (fun _ => .orig) "" "").1) a.mod_ok a.orig_ok fun
      | .orig => he .orig
      | .mod => he .mod

theorem Opening.Asked.distinct {o : Opening (asking pre post postText hypText) (orig.alone name tid)
    (mod.alone name' tid') w} {u : World} (hu : o.Asked u) {preMod preOrig : Constr} {w₁ w₂ : World}
    (hw : w.Fresh) (hn : w.Freshened (Mentions w pre post orig mod))
    (hl : ∀ side, (o.start.env side).Later False (World.env { w₂ with nodes := w₂.nodes + 1 } side))
    (hmod : visitSub .mod o.post (mod.alone name' tid') o.start = .ok preMod w₁)
    (horig : visitSub .orig preMod (orig.alone name tid) w₁ = .ok preOrig w₂) :
    Distinct { w₂ with nodes := w₂.nodes + 1 } := by
  have hlabels (side : Side) : (w.env side).Labels (o.start.env side) := by
    have hnoted := ((snapshot_ok o.first_ok).1.labels side).trans ((snapshot_ok o.second_ok).1.labels side)
    exact (hnoted.trans (hu.exits.same side)).trans (hu.entries.same side)
  obtain ⟨K₂, K₃, K₄, hb₂, hb₃, hb₄, -⟩ := o.built (K := fun _ => False) asking_reads
  exact distinct_last hw hn hlabels (fun side => (((hb₂.trans hb₃).trans hb₄).later side).trans (hl side))
    (hu.stage hw hl).within (respects_visitSub _ (mentioned_covers (fun _ => .mod) _ _).2)
    (respects_visitSub _ (mentioned_covers (fun _ => .orig) _ _).2) hmod horig
    fun side => by cases side <;> rfl

/-- Two blocks of definitions, compared by themselves and as the only blocks of two subroutines. The
comparison of the subroutines asks only that the exits are as they should be where values at entry are
recalled, which the comparison of the blocks does not. Where no text names a value at entry, both ask for
the same. -/
theorem blocks_subs (hw : w.Fresh) (hn : w.Freshened (Mentions w pre post orig mod))
    (ho : orig.Linear) (hm : mod.Linear) (hk : orig.defs.all (·.rhs.known))
    (hk' : mod.defs.all (·.rhs.known)) {d : Constr} {wc wd : World}
    (hc : blocks pre post orig mod postText hypText w = .ok c wc)
    (hd : subs (asking pre post postText hypText) (orig.alone name tid) (mod.alone name' tid') w =
      .ok d wd) :
    ∃ φ ψ, c.toFormula = .ok φ ∧ d.toFormula = .ok ψ ∧
      ((∀ m, ψ.holds m) ↔ ∀ m,
        m.Recalls (wc.env .orig).vars (wc.env .orig).inits (noted orig pre post) →
        m.Recalls (wc.env .mod).vars (wc.env .mod).inits (noted mod pre post) → φ.holds m) ∧
      (Smt.Entryless postText → Smt.Entryless hypText →
        ((∀ m, ψ.holds m) ↔ ∀ m, φ.holds m)) := by
  obtain ⟨a, rfl, rfl⟩ := blocks_alone (K := fun _ => False) hc
  obtain ⟨o, preMod, w₁, preOrig, w₂, hmod, horig, rfl, rfl⟩ := subs_opening hd
  obtain ⟨u, hu⟩ := o.asked
  have hP := hn.telling
  have hdefault (side : Side) : Default side w := .fresh (hw.vars side) (hw.reach side) (hw.sideRules side)
  have hledger : Constr.Ledger (fun _ => False) w.nodes := .empty
  have hnew (side : Side) (t : String) (n : Unroll) : (w.env side).precond? t n = none :=
    precond?_empty (by rw [hw.frame]; rfl) t n
  have hroot (side : Side) : (w.env side).frame.root = none := by
    rw [hw.frame]
    rfl
  obtain ⟨hl, ⟨K₁, hK₁, hk₁⟩, htruth⟩ := a.truth ho hm hdefault hledger (hnew ..) (hnew ..)
  obtain ⟨hl', ⟨K₂, hK₂, hk₂⟩, htruth'⟩ := hu.truth ho hm hdefault hledger hroot hmod horig
  have hwc := a.distinct hw hn hl
  have hwd := hu.distinct hw hn hl' hmod horig
  replace htruth := htruth hwc.toApart
  replace htruth' := htruth' hwd.toApart
  obtain ⟨φ, hφ, hφm⟩ := hK₁.formula hk₁
  obtain ⟨ψ, hψ, hψm⟩ := hK₂.formula hk₂
  have s := a.stage hw hl
  have s' := hu.stage hw hl'
  have hn := a.notes hw
  obtain ⟨-, hn'⟩ := hu.notes hw
  have hsub (side : Side) (v : Var) (hv : v ∈ sides (varsOf (w.env .orig) (orig.alone name tid))
      (varsOf (w.env .mod) (mod.alone name' tid')) side) := List.mem_append_right pre
    (List.mem_append_right post hv)
  have hc₂ := hwc.earlier (fun side => (hl side).vars) fun side => (hl side).inits
  have hd₂ := hwd.earlier (fun side => (hl' side).vars) fun side => (hl' side).inits
  -- both constraints in models that match
  have hboth {m m' : Model} (hmatch : a.w₂.Match True o.start m m')
      (horig : m'.Recalls (w₂.env .orig).vars (w₂.env .orig).inits
        (varsOf (w.env .orig) (orig.alone name tid)))
      (hmod : m'.Recalls (w₂.env .mod).vars (w₂.env .mod).inits
        (varsOf (w.env .mod) (mod.alone name' tid'))) : φ.holds m = true ↔ ψ.holds m' = true := by
    obtain ⟨n, hr, hiff⟩ := htruth m
    obtain ⟨n', hr', hiff'⟩ := htruth' m'
    obtain ⟨hpre, hpost⟩ := s.transfer s' hP hk hk' hmatch (.inl True.intro) (.inl True.intro)
      a.post_reads (fun _ => hu.reads) a.hyp_reads (fun _ => hu.entry_reads) hr hr'
    rw [hφm, hψm, hiff, hiff', hpre, hpost]
    exact ⟨fun h ha => h ha.1, fun h ha => h ⟨ha, horig, hmod⟩⟩
  have hrecalled : (∀ m, ψ.holds m = true) ↔ ∀ m,
      m.Recalls (a.last.env .orig).vars (a.last.env .orig).inits (noted orig pre post) →
      m.Recalls (a.last.env .mod).vars (a.last.env .mod).inits (noted mod pre post) →
      φ.holds m = true := by
    constructor
    · intro hall m horig hmod
      obtain ⟨m', hmatch, hfree⟩ := hd₂.exists_match hn.tidy hn'.tidy m
      have hrec := recalls_of_match hn hn' (fun _ _ => id) hsub hmatch hfree hl hl' fun
        | .orig => horig
        | .mod => hmod
      exact (hboth hmatch (hrec .orig) (hrec .mod)).mpr (hall m')
    · intro hall m'
      obtain ⟨n', -, hiff'⟩ := htruth' m'
      rw [hψm, hiff']
      intro ha
      obtain ⟨m, hmatch, hfree⟩ := hc₂.exists_match hn'.tidy hn.tidy m'
      have hrec := recalls_of_match hn' hn hsub (fun _ _ => id) hmatch hfree hl' hl fun
        | .orig => ha.2.1
        | .mod => ha.2.2
      have hψ := (hboth hmatch.symm ha.2.1 ha.2.2).mp (hall m (hrec .orig) (hrec .mod))
      rw [hψm, hiff'] at hψ
      exact hψ ha
  refine ⟨φ, ψ, hφ, hψ, hrecalled, fun hpost hhyp =>
    hrecalled.trans ⟨fun hall m => ?_, fun hall m _ _ => hall m⟩⟩
  -- without names of values at entry these may be those that are recalled
  obtain ⟨m', hmatch, hrec⟩ := hc₂.exists_entry hn (fun _ _ => id) hl m
  obtain ⟨n, hr, hiff⟩ := htruth m
  obtain ⟨n', hr', hiff'⟩ := htruth m'
  obtain ⟨hpre, hpost⟩ := s.transfer s hP hk hk' hmatch (.inr hpost) (.inr hhyp)
    a.post_reads a.post_reads a.hyp_reads a.hyp_reads hr hr'
  have hφ := hall m' (hrec .orig) (hrec .mod)
  rw [hφm, hiff'] at hφ
  rw [hφm, hiff, hpre, hpost]
  exact hφ

/-! ### Doublings by themselves -/

/-- A text that can be read gives a goal. -/
theorem formulaForBoth_ok {text : String} (h : w.Reads text) :
    ∃ c, formulaForBoth text w = .ok c { w with nodes := w.nodes + 1 } := by
  obtain ⟨ps, hps⟩ := h
  have hread : formulaForBoth text w = formula text w.declared w := rfl
  rw [hread, formula, hps]
  match ps with
  | [] => exact ⟨_, rfl⟩
  | [p] => exact ⟨_, rfl⟩
  | p :: q :: ps => exact ⟨_, rfl⟩

theorem reads_of_isSome {text : String} (h : (Smt.assertions w.declared text).isSome = true) :
    w.Reads text := Option.isSome_iff_exists.mp h

/-- A block of one assignment to the register. -/
def setting (rhs : Exp) : Blk := ⟨"%only", [], [⟨reg, rhs, "%set"⟩], []⟩

def addition : Blk := setting (.bin .add (.var reg) (.var reg))

def shift : Blk := setting (.bin .shl (.var reg) (.lit 1#32))

/-- The register has been doubled in the first program. -/
def doubledText : String := "(= R0_orig (bvadd init_R0_orig init_R0_orig))"

theorem reads_succeeds {text : String} {P : Constr → World → Prop}
    (h : (Smt.assertions w.declared text).isSome = true)
    (hP : ∀ c, P c { w with nodes := w.nodes + 1 }) : Succeeds (formulaForBoth text) w P :=
  let ⟨c, hc⟩ := formulaForBoth_ok (reads_of_isSome h)
  .now hc (hP c)

theorem condition_succeeds {text : String} {P : List Constr → World → Prop} (hb : isBlankText text = false)
    (h : (Smt.assertions w.declared text).isSome = true)
    (hP : ∀ c, P [c] { w with nodes := w.nodes + 1 }) : Succeeds (condition text) w P := by
  obtain ⟨c, hc⟩ := formulaForBoth_ok (reads_of_isSome h)
  rw [condition, hb]
  exact .step hc (.now rfl (hP c))

theorem blocks_compared :
    Succeeds (blocks [reg] [reg] addition shift doubledText "true") doubles fun _ _ => True := by
  rw [blocks_eq]
  have horig : noted addition [reg] [reg] = [reg] := by decide
  have hmod : noted shift [reg] [reg] = [reg] := by decide
  rw [horig, hmod]
  have hsnap (side : Side) : snapshot side [reg] = (do return [← entryGoal side reg]) := by
    rw [snapshot_eq, sorted_reg, List.mapM_cons, List.mapM_nil]
    simp only [pure_bind]
  rw [hsnap, hsnap]
  refine .bind (.bind (.step rfl (.step rfl (.now rfl ?_))))
  refine .now rfl ?_
  refine .bind (.bind (.step rfl (.step rfl (.now rfl ?_))))
  refine .now rfl ?_
  dsimp only [World.setEnv, World.env]
  refine .bind (relates ?_)
  refine .step rfl (.step rfl (.step rfl (.now rfl ?_)))
  refine .bind (relates ?_)
  refine .step rfl (.step rfl (.step rfl (.now rfl ?_)))
  dsimp only [World.setEnv, World.env]
  refine .bind (condition_succeeds (by decide +kernel) (by decide +kernel) fun posts => ?_)
  refine .bind (condition_succeeds (by decide +kernel) (by decide +kernel) fun hyps => ?_)
  dsimp only [World.setEnv, World.env]
  refine .step rfl ?_
  refine .bind ?_
  unfold visitBlockAlone
  refine .step rfl (.block (precond?_empty rfl ..) (.now rfl ?_))
  dsimp only [World.setEnv, World.env, Env.addPrecond]
  refine .bind ?_
  refine .step rfl (.block (precond?_empty rfl ..) (.now rfl ?_))
  exact .step rfl (.now rfl True.intro)

theorem subs_compared :
    Succeeds (subs (asking [reg] [reg] doubledText "true") (addition.alone "double" "@double")
      (shift.alone "double" "@double")) doubles fun _ _ => True := by
  have hadded : sortByName (addition.alone "double" "@double").vars = [reg] := by
    rw [show (addition.alone "double" "@double").vars = [reg] by decide, sorted_reg]
  have hshifted : sortByName (shift.alone "double" "@double").vars = [reg] := by
    rw [show (shift.alone "double" "@double").vars = [reg] by decide, sorted_reg]
  -- the values at entry
  refine .step rfl (.bind (recalls (by decide) rfl ?_))
  refine .bind (.step rfl (.step rfl (.now rfl ?_)))
  refine .bind (.step rfl (.step rfl (.now rfl (.now rfl ?_))))
  refine .step rfl (.bind (recalls (by decide) rfl ?_))
  refine .bind (.step rfl (.step rfl (.now rfl ?_)))
  refine .bind (.step rfl (.step rfl (.now rfl (.now rfl ?_))))
  dsimp only [World.setEnv, World.env, Env.addPrecond]
  -- the postcondition and the hypothesis
  rw [asking, List.mapM_cons, List.mapM_cons, List.mapM_nil]
  refine .bind (.bind (relates ?_))
  refine .step rfl (.step rfl (.step rfl (.now rfl ?_)))
  dsimp only [World.setEnv, World.env]
  refine .bind (.bind (reads_succeeds (by decide +kernel) fun posts => ?_))
  dsimp only
  refine .now rfl ?_
  refine .now rfl (.step rfl ?_)
  rw [List.mapM_cons, List.mapM_cons, List.mapM_nil]
  refine .bind (.bind (relates ?_))
  refine .step rfl (.step rfl (.step rfl (.now rfl ?_)))
  dsimp only [World.setEnv, World.env]
  refine .bind (.bind (reads_succeeds (by decide +kernel) fun posts => ?_))
  dsimp only
  refine .now rfl ?_
  refine .now rfl (.step rfl ?_)
  -- the second subroutine
  refine .bind (.step rfl ?_)
  dsimp only [World.setEnv, World.env]
  refine .enter (Graph.ofSub_lone rfl rfl) hshifted ?_
  refine .step rfl (.step rfl (.step rfl (.step rfl (.restoring ?_))))
  refine .settle rfl (precond?_empty rfl ..) (.step rfl (.step rfl ?_))
  refine .step rfl (.step rfl (.step rfl (.block (precond?_empty rfl ..) (.now rfl ?_))))
  dsimp only [World.setEnv, World.env, Env.addPrecond]
  -- the first one
  refine .bind (.step rfl ?_)
  refine .enter (Graph.ofSub_lone rfl rfl) hadded ?_
  refine .step rfl (.step rfl (.step rfl (.step rfl (.restoring ?_))))
  refine .settle rfl (precond?_empty rfl ..) (.step rfl (.step rfl ?_))
  refine .step rfl (.step rfl (.step rfl (.block (precond?_empty rfl ..) (.now rfl ?_))))
  exact .now rfl True.intro

/-- All variables that the comparisons of the doublings mention. -/
theorem mentions_doubles {v : Var} (hv : Mentions doubles [reg] [reg] addition shift v) :
    v ∈ reg :: conventional oneRegister := by
  cases hv with
  | orig hv | mod hv | pre hv | post hv =>
    revert hv
    revert v
    decide
  | arch side hv => cases side <;> exact List.mem_cons_of_mem _ hv
  | sub side hs hv =>
    cases side <;>
    · cases List.mem_singleton.mp hs
      revert hv
      revert v
      decide

theorem freshened_doubles : doubles.Freshened (Mentions doubles [reg] [reg] addition shift) := by
  have htelling : ∀ u ∈ reg :: conventional oneRegister, ∀ v ∈ reg :: conventional oneRegister,
      (u.name = v.name → u = v) ∧ u.name ≠ initFront ++ v.name := by decide
  have hother : ∀ v ∈ reg :: conventional oneRegister, v.name.toList.take 4 ≠ "mod.".toList ∧
      (initFront ++ v.name).toList.take 4 ≠ "mod.".toList := by decide
  have hnumbered (k : Nat) (x : String) :
      ((doubles.env .mod).names.numbered k x).toList.take 4 = "mod.".toList := by
    show ("mod" ++ "." ++ (x ++ "_" ++ toString k)).toList.take 4 = _
    rw [String.toList_append, show ("mod" ++ "." : String) = "mod." by decide]
    rfl
  refine ⟨rfl, rfl, ⟨fun hu hv => ?_, fun hu hv => ?_⟩, fun k x hv => ⟨fun he => ?_, fun he => ?_⟩⟩
  · exact (htelling _ (mentions_doubles hu) _ (mentions_doubles hv)).1
  · exact (htelling _ (mentions_doubles hu) _ (mentions_doubles hv)).2
  · exact (hother _ (mentions_doubles hv)).1 (he ▸ hnumbered k x)
  · exact (hother _ (mentions_doubles hv)).2 (he ▸ hnumbered k x)

theorem blocks_subs_doubles : ∃ c d wc wd φ ψ,
    blocks [reg] [reg] addition shift doubledText "true" doubles = .ok c wc ∧
      subs (asking [reg] [reg] doubledText "true") (addition.alone "double" "@double")
        (shift.alone "double" "@double") doubles = .ok d wd ∧
      c.toFormula = .ok φ ∧ d.toFormula = .ok ψ ∧
      ((∀ m, ψ.holds m) ↔ ∀ m,
        m.Recalls (wc.env .orig).vars (wc.env .orig).inits (noted addition [reg] [reg]) →
        m.Recalls (wc.env .mod).vars (wc.env .mod).inits (noted shift [reg] [reg]) → φ.holds m) ∧
      (Smt.Entryless doubledText → Smt.Entryless "true" →
        ((∀ m, ψ.holds m) ↔ ∀ m, φ.holds m)) := by
  obtain ⟨c, wc, hc, -⟩ := blocks_compared
  obtain ⟨d, wd, hd, -⟩ := subs_compared
  have hfresh : doubles.Fresh := by constructor <;> rintro (_ | _) <;> rfl
  obtain ⟨φ, ψ, hφ, hψ, hiff⟩ := blocks_subs hfresh freshened_doubles ⟨rfl, rfl⟩ ⟨rfl, rfl⟩ (by decide)
    (by decide) hc hd
  exact ⟨c, d, wc, wd, φ, ψ, hc, hd, hφ, hψ, hiff⟩

end Compare

end Precond
