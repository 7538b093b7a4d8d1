import Precond.Proofs.Compare.Queries
import Precond.Proofs.Flow.Graph
import Precond.Proofs.Smt.Alike

/-! Texts about two programs. A name in a text is that of a variable with the mark of a program, and for
its value at entry with a word in front (`World.Declares`). Where variables can be told by these names, a
text that can be read in two worlds says the same in them, if the variables of both worlds have equal
values (`World.Match.tells_iff`). -/

namespace Precond

open IR Walk

namespace Table

variable {κ α β : Type} [DecidableEq κ] {t : Table κ α} {key : κ} {a : α}

/-- Each key has one entry. -/
def Single (t : Table κ α) : Prop := t.keys.Nodup

theorem mem_put {p : κ × α} (h : p ∈ t.put key a) : p = (key, a) ∨ p ∈ t := by
  induction t with
  | nil => exact .inl (List.mem_singleton.mp h)
  | cons e rest ih =>
    rw [put] at h
    split at h
    · exact (List.mem_cons.mp h).imp_right (List.mem_cons_of_mem e)
    · rcases List.mem_cons.mp h with rfl | h
      · exact .inr List.mem_cons_self
      · exact (ih h).imp_right (List.mem_cons_of_mem e)

theorem mem_foldl_put {p : κ × α} {f : β → κ} {g : β → α} {xs : List β}
    (h : p ∈ xs.foldl (fun t x => t.put (f x) (g x)) t) : p ∈ t ∨ ∃ x ∈ xs, p = (f x, g x) := by
  induction xs generalizing t with
  | nil => exact .inl h
  | cons x xs ih =>
    rcases ih h with h | ⟨y, hy, rfl⟩
    · rcases mem_put h with rfl | h
      · exact .inr ⟨x, List.mem_cons_self, rfl⟩
      · exact .inl h
    · exact .inr ⟨y, List.mem_cons_of_mem x hy, rfl⟩

theorem Single.put (h : t.Single) (key : κ) (a : α) : (t.put key a).Single := by
  induction t with
  | nil => exact List.nodup_singleton key
  | cons e rest ih =>
    obtain ⟨hnot, hrest⟩ := List.nodup_cons.mp h
    rw [Table.put]
    split
    · rename_i he
      exact List.nodup_cons.mpr ⟨he ▸ hnot, hrest⟩
    · rename_i he
      refine List.nodup_cons.mpr ⟨fun hmem => hnot ?_, ih hrest⟩
      obtain ⟨p, hp, hpe⟩ := List.mem_map.mp hmem
      rcases mem_put hp with rfl | hp
      · exact absurd hpe.symm he
      · exact List.mem_map.mpr ⟨p, hp, hpe⟩

/-- An entry is what is found. -/
theorem Single.lookup (h : t.Single) (hp : (key, a) ∈ t) : t.lookup key = some a := by
  induction t with
  | nil => cases hp
  | cons e rest ih =>
    obtain ⟨hnot, hrest⟩ := List.nodup_cons.mp h
    rw [List.lookup_cons]
    rcases List.mem_cons.mp hp with rfl | hp
    · rw [beq_self_eq_true]
    · rw [beq_false_of_ne fun he => hnot (List.mem_map.mpr ⟨_, hp, he⟩)]
      exact ih hrest hp

end Table

/-! ### Declared names -/

/-- What tells the names of one program from those of the other. -/
def Side.mark : Side → String
  | .orig => "_orig"
  | .mod => "_mod"

theorem Side.mark_last (side : Side) (x : String) :
    (x ++ side.mark).toList.getLast? = some (match side with
      | .orig => 'g'
      | .mod => 'd') := by
  cases side <;>
    exact (congrArg List.getLast? String.toList_append).trans List.getLast?_append

/-- A name with a mark tells both. -/
theorem Side.mark_inj {side side' : Side} {x y : String} (h : x ++ side.mark = y ++ side'.mark) :
    side = side' ∧ x = y := by
  have hlast : (x ++ side.mark).toList.getLast? = (y ++ side'.mark).toList.getLast? := by rw [h]
  rw [side.mark_last, side'.mark_last] at hlast
  have hside : side = side' := by
    cases side <;> cases side' <;> first | rfl | cases hlast
  subst hside
  have hl := congrArg String.toList h
  rw [String.toList_append, String.toList_append] at hl
  exact ⟨rfl, String.toList_inj.mp (List.append_cancel_right hl)⟩

namespace World

variable {w w' : World} {m m' : Model} {n text : String} {t t' : SomeTerm} {side : Side}

/-- The names that a text about both programs may use. -/
def declared (w : World) : Smt.Decls :=
  (declsOf (w.env .mod) "_mod").foldl (fun t (n, x) => Table.put t n x)
    (declsOf (w.env .orig) "_orig")

/-- The name stands for a variable of a program, or for its value at entry. -/
inductive Declares (w : World) : String → SomeTerm → Prop
  | var (side : Side) : (w.env side).vars.lookup v = some x → Declares w (v.name ++ side.mark) x
  | entry (side : Side) : (w.env side).inits.lookup v = some x →
    Declares w (initFront ++ v.name ++ side.mark) x

/-- Each variable has one entry. -/
structure Orderly (w : World) : Prop where
  vars (side : Side) : (w.env side).vars.Single
  inits (side : Side) : (w.env side).inits.Single

theorem declares_of_mem (side : Side) (h : (n, t) ∈ declsOf (w.env side) side.mark) (hw : w.Orderly) :
    w.Declares n t := by
  rcases Table.mem_foldl_put h with h | ⟨⟨v, x⟩, hv, he⟩
  · rcases Table.mem_foldl_put h with h | ⟨⟨v, x⟩, hv, he⟩
    · cases h
    · cases he
      exact .var side ((hw.vars side).lookup hv)
  · cases he
    exact .entry side ((hw.inits side).lookup hv)

theorem Orderly.declares (hw : w.Orderly) (h : w.declared.lookup n = some t) : w.Declares n t := by
  rcases Table.mem_foldl_put (Table.mem_of_lookup h) with h | ⟨⟨k, x⟩, hk, he⟩
  · exact declares_of_mem .orig h hw
  · cases he
    exact declares_of_mem .mod hk hw

/-- No name stands for something without being declared. -/
theorem Declares.ne (h : w.Declares n t) : n ≠ "true" ∧ n ≠ "false" := by
  have hmark (side : Side) (x : String) : x ++ side.mark ≠ "true" ∧ x ++ side.mark ≠ "false" := by
    constructor <;>
      · intro he
        have hlast := side.mark_last x
        rw [he] at hlast
        cases side <;> exact absurd hlast (by decide)
  cases h with
  | var side => exact hmark side _
  | entry side => exact hmark side _

/-- The world has variables of this kind only. -/
structure Within (P : Var → Prop) (w : World) : Prop where
  vars (side : Side) : (w.env side).vars.lookup v = some x → P v
  inits (side : Side) : (w.env side).inits.lookup v = some x → P v

theorem Within.congr {P : Var → Prop} (h : w.Within P) (he : ∀ side, w'.env side = w.env side) :
    w'.Within P :=
  ⟨fun side hv => h.vars side (he side ▸ hv), fun side hv => h.inits side (he side ▸ hv)⟩

/-- The variables of both worlds have equal values, and so have their values at entry if these count. -/
structure Match (entries : Prop) (w w' : World) (m m' : Model) : Prop where
  vars (side : Side) : (w.env side).vars.lookup v = some x → (w'.env side).vars.lookup v = some y →
    x.value m = y.value m'
  inits (side : Side) : entries → (w.env side).inits.lookup v = some x →
    (w'.env side).inits.lookup v = some y → x.value m = y.value m'

end World

/-- Variables of this kind can be told by their names, also from their values at entry. -/
structure Telling (P : Var → Prop) : Prop where
  name : P u → P v → u.name = v.name → u = v
  entry : P u → P v → u.name ≠ initFront ++ v.name

/-- No symbol of the text is the name of a value at entry. -/
def Smt.Entryless (text : String) : Prop :=
  ∀ (x : String) (side : Side), initFront ++ x ++ side.mark ∉ symbols text

/-- The declarations of some names. -/
def Smt.Decls.only (d : Decls) (names : List String) : Decls := d.filter fun e => e.1 ∈ names

theorem Smt.Decls.lookup_only (d : Decls) (names : List String) (n : String) :
    (d.only names).lookup n = if n ∈ names then d.lookup n else none := by
  unfold only
  induction d with
  | nil => exact (ite_self _).symm
  | cons e d ih =>
    rw [List.filter_cons]
    split
    · rename_i he
      rw [List.lookup_cons, List.lookup_cons, ih]
      cases hn : n == e.1 with
      | true =>
        cases eq_of_beq hn
        exact (if_pos (of_decide_eq_true he)).symm
      | false => rfl
    · rename_i he
      rw [ih, List.lookup_cons]
      cases hn : n == e.1 with
      | true =>
        cases eq_of_beq hn
        rw [if_neg fun h => he (decide_eq_true h), if_neg fun h => he (decide_eq_true h)]
      | false => rfl

/-- Only what the symbols of a text stand for matters. -/
theorem Smt.assertions_only {d : Decls} {text : String} {ps : List (Term .bool)}
    (h : assertions d text = some ps) : assertions (d.only (symbols text)) text = some ps := by
  refine assertions_congr (fun n hn => ?_) h ?_
  · rw [Decls.lookup_only, if_pos hn]
  · rw [assertions] at h
    split at h
    · cases h
    · rename_i hd
      rw [Bool.not_eq_true, Bool.not_eq_false'] at hd
      refine List.all_eq_true.mpr fun e he => List.all_eq_true.mp hd e (List.mem_of_mem_filter he)

namespace World

variable {w w' : World} {m m' : Model} {n text : String} {t t' : SomeTerm} {P : Var → Prop}
  {entries : Prop}

theorem Match.symm (h : w.Match entries w' m m') : w'.Match entries w m' m :=
  ⟨fun side ht ht' => (h.vars side ht' ht).symm,
    fun side he ht ht' => (h.inits side he ht' ht).symm⟩

/-- Values at entry need not count if they are not named. -/
theorem Match.declares (h : w.Match entries w' m m') (hP : Telling P) (hw : w.Within P)
    (hw' : w'.Within P) (hn : entries ∨ ∀ (x : String) (side : Side), initFront ++ x ++ side.mark ≠ n)
    (ht : w.Declares n t) (ht' : w'.Declares n t') : t.value m = t'.value m' := by
  have hfront {x y : String} (hxy : initFront ++ x = initFront ++ y) : x = y := by
    have hl := congrArg String.toList hxy
    rw [String.toList_append, String.toList_append] at hl
    exact String.toList_inj.mp (List.append_cancel_left hl)
  generalize he : n = n' at ht'
  cases ht with
  | var side hv =>
    cases ht' with
    | var side' hv' =>
      obtain ⟨rfl, hname⟩ := Side.mark_inj he
      cases hP.name (hw.vars _ hv) (hw'.vars _ hv') hname
      exact h.vars _ hv hv'
    | entry side' hv' =>
      obtain ⟨rfl, hname⟩ := Side.mark_inj he
      exact absurd hname (hP.entry (hw.vars _ hv) (hw'.inits _ hv'))
  | entry side hv =>
    cases ht' with
    | var side' hv' =>
      obtain ⟨rfl, hname⟩ := Side.mark_inj he
      exact absurd hname.symm (hP.entry (hw'.vars _ hv') (hw.inits _ hv))
    | entry side' hv' =>
      obtain ⟨rfl, hname⟩ := Side.mark_inj he
      cases hP.name (hw.inits _ hv) (hw'.inits _ hv') (hfront hname)
      exact h.inits _ (hn.resolve_right fun hn => hn _ _ rfl) hv hv'

/-- The symbols of a text that both worlds declare stand for equal values. -/
theorem Match.alike (h : w.Match entries w' m m') (hP : Telling P) (hw : w.Within P)
    (hw' : w'.Within P) (ho : w.Orderly) (ho' : w'.Orderly) (htext : entries ∨ Smt.Entryless text) :
    Smt.Decls.Alike m m' (w.declared.only (Smt.symbols text))
      (w'.declared.only (Smt.symbols text)) := by
  intro n
  rw [Smt.Decls.lookup_only, Smt.Decls.lookup_only]
  split
  swap
  · exact .inl .none
  rename_i hn
  have hname : entries ∨ ∀ (x : String) (side : Side), initFront ++ x ++ side.mark ≠ n :=
    htext.imp_right fun htext x side he => htext x side (he ▸ hn)
  cases ht : w.declared.lookup n with
  | none =>
    cases ht' : w'.declared.lookup n with
    | none => exact .inl .none
    | some t' => exact .inr ⟨.inl rfl, (ho'.declares ht').ne⟩
  | some t =>
    cases ht' : w'.declared.lookup n with
    | none => exact .inr ⟨.inr rfl, (ho.declares ht).ne⟩
    | some t' =>
      exact .inl (.some (SomeTerm.alike_iff.mpr
        (h.declares hP hw hw' hname (ho.declares ht) (ho'.declares ht'))))

/-! ### What texts say -/

/-- The text can be read. -/
def Reads (w : World) (text : String) : Prop := ∃ ps, Smt.assertions w.declared text = some ps

/-- The text can be read, and what it says is true in the model. -/
def Tells (w : World) (text : String) (m : Model) : Prop :=
  ∃ ps, Smt.assertions w.declared text = some ps ∧ ∀ p ∈ ps, p.holds m = true

theorem Match.tells_iff (h : w.Match entries w' m m') (hP : Telling P) (hw : w.Within P)
    (hw' : w'.Within P) (ho : w.Orderly) (ho' : w'.Orderly) (htext : entries ∨ Smt.Entryless text)
    (hr : w.Reads text) (hr' : w'.Reads text) : w.Tells text m ↔ w'.Tells text m' := by
  obtain ⟨ps, hps⟩ := hr
  obtain ⟨qs, hqs⟩ := hr'
  have hpq := Smt.assertions_alike (h.alike hP hw hw' ho ho' htext) (Smt.assertions_only hps)
    (Smt.assertions_only hqs)
  constructor
  · rintro ⟨ps', hps', hall⟩
    cases hps.symm.trans hps'
    refine ⟨qs, hqs, fun q hq => ?_⟩
    obtain ⟨p, hp, hpq⟩ := Mirror.forall₂_right hpq q hq
    exact hpq.symm.trans (hall p hp)
  · rintro ⟨qs', hqs', hall⟩
    cases hqs.symm.trans hqs'
    refine ⟨ps, hps, fun p hp => ?_⟩
    obtain ⟨q, hq, hpq⟩ := Mirror.forall₂_left hpq p hp
    exact hpq.trans (hall q hq)

/-! ### Texts that are asked for -/

/-- The environments of a world. -/
def scene (w : World) : Scene := ⟨w.env, fun _ => [], fun _ => True⟩

theorem scene_at (w : World) : w.scene.At w := ⟨fun _ => ⟨_, _, rfl⟩, fun _ => True.intro⟩

theorem scene_congr (h : ∀ side, w'.env side = w.env side) : w'.scene = w.scene := by
  rw [scene, scene, funext h]

theorem declared_congr (h : ∀ side, w'.env side = w.env side) : w'.declared = w.declared := by
  rw [declared, declared, h, h]

theorem declared_of_at {u : World} (hu : w.scene.At u) : u.declared = w.declared := by
  obtain ⟨names, called, ho⟩ := hu.env .orig
  obtain ⟨names', called', hm⟩ := hu.env .mod
  unfold declared
  rw [ho, hm]
  rfl

end World

theorem Constr.Proper.formal {c : Constr} (h : c.Proper) : c.Formal :=
  let ⟨t, ht, _⟩ := h.plain
  ⟨t, ht⟩

theorem Constr.Means.truth {c : Constr} {A : Model → Prop} (h : c.Means A) (m : Model) :
    c.truth m = true ↔ A m := by
  obtain ⟨t, ht, htm⟩ := h.proper.plain
  rw [truth_of_plain ht, htm, h.holds]

namespace Scene.Still

variable {w : World}

/-- A text is read. -/
theorem formulaForBoth (text : String) :
    w.scene.Still (fun c => w.Reads text ∧ c.Means (w.Tells text)) (Walk.formulaForBoth text) := by
  refine ⟨fun {u c u'} hu h => ?_⟩
  have hread : Walk.formula text w.declared u = .ok c u' := World.declared_of_at hu ▸ h
  have hgoal {name : String} {p : Term .bool} {ps : List (Term .bool)}
      (hps : Smt.assertions w.declared text = some ps)
      (hp : ∀ m, p.holds m = true ↔ ∀ q ∈ ps, q.holds m = true)
      (h : Walk.mkGoal name p none u = .ok c u') :
      (∀ side, u'.env side = u.env side) ∧ w.Reads text ∧ c.Means (w.Tells text) := by
    obtain ⟨henv, hc⟩ := (mkGoal (S := w.scene) name p none).run hu h
    refine ⟨henv, ⟨ps, hps⟩, hc.proper, fun m => (hc.holds m).trans ((hp m).trans ?_)⟩
    refine ⟨fun hall => ⟨ps, hps, hall⟩, ?_⟩
    rintro ⟨qs, hqs, hall⟩
    cases hps.symm.trans hqs
    exact hall
  unfold Walk.formula at hread
  cases hps : Smt.assertions w.declared text with
  | none =>
    rw [hps] at hread
    cases hread
  | some ps =>
    rw [hps] at hread
    match ps with
    | [] => exact hgoal hps (fun m => ⟨fun _ => nofun, fun _ => rfl⟩) hread
    | [p] =>
      refine hgoal hps (fun m => ?_) hread
      rw [List.forall_mem_singleton]
    | p :: q :: ps =>
      refine hgoal hps (fun m => ?_) hread
      rw [Spine.holds_and]
      exact List.all_eq_true

end Scene.Still

end Precond
