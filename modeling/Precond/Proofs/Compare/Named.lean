import Precond.Proofs.Compare.Worlds
import Precond.Proofs.Walk.Making

/-! The constants of comparisons. Environments as they are set up are asked for variables of the two
programs only (`Compare.Mentions`). If the first one names constants like variables, and the second one
by names that no variable has, all constants are different ones (`World.Freshened.distinct`). -/

namespace Precond

open IR Precond.Flow Walk

namespace Walk

variable {V : Vocabulary} {side : Side} {rules : List SideRule} {R : Side → Env → Env → Prop}

/-- The visit of a block by itself asks for names of its vocabulary only. -/
theorem respects_visitBlockAlone [Changes side rules V R] (post : Constr) {b : Blk}
    (hb : V.CoversBlk b) : Respects side rules V R (visitBlockAlone side post b) :=
  .bind (.move fun _ hg => ⟨_, _, _, rfl, fun _ => hg.graph⟩) fun _ =>
    .visitBlock (fun post _ hc => respects_visitSub post hc) _ hb

/-- What is new in the tables is for variables of the vocabulary. -/
theorem Making.within {U : Side → Vocabulary} {s : Side} {e e₁ : Env} (h : Making U s e e₁) {v : Var}
    {t : SomeTerm} : (e₁.vars.lookup v = some t → e.vars.lookup v = some t ∨ (U s).var v) ∧
      (e₁.inits.lookup v = some t → e.inits.lookup v = some t ∨ (U s).var v) := by
  obtain ⟨made, hmade⟩ := h.makes
  have hall := hmade.names.2
  constructor <;> intro hv
  · refine (hmade.records.vars hv).imp_right ?_
    rintro ⟨x, hx, hp, -⟩
    have hwithin := hall x hx
    rw [Made.Within, hp] at hwithin
    exact hwithin.1
  · refine (hmade.records.inits hv).imp_right ?_
    rintro ⟨x, hx, hp, -⟩
    have hwithin := hall x hx
    rw [Made.Within, hp] at hwithin
    exact hwithin.1

/-- One program is walked after the other, and what is new is for variables of their vocabulary. -/
theorem walks_within {w w₁ w₂ : World} {x y : Walk Constr} {c d : Constr}
    (hrules : ∀ side, (w.env side).sideRules = []) (hg : ∀ side, V.Governs (w.env side))
    (hx : Respects .mod [] V (Making fun _ => V) x) (hy : Respects .orig [] V (Making fun _ => V) y)
    (hc : x w = .ok c w₁) (hd : y w₁ = .ok d w₂) (hw : w.Within V.var) : w₂.Within V.var := by
  have h₁ (side : Side) := hx.of_ok (hrules .mod) (hg .mod) hc side
  have h₂ (side : Side) := hy.of_ok ((h₁ .orig).sideRules.trans (hrules .orig))
    ((h₁ .orig).governs (hg .orig)) hd side
  refine ⟨fun side hv => ?_, fun side hv => ?_⟩
  · exact ((h₂ side).within.1 hv).elim (fun hv => ((h₁ side).within.1 hv).elim (hw.vars side) id) id
  · exact ((h₂ side).within.2 hv).elim (fun hv => ((h₁ side).within.2 hv).elim (hw.inits side) id) id

end Walk

/-! ### Names of constants -/

/-- The first environment names constants like variables, and the second one by new names. Variables of
this kind can be told by their names, and neither they nor their values at entry are named like new
constants. -/
structure World.Freshened (P : Var → Prop) (w : World) : Prop where
  orig : (w.env .orig).freshen = false
  mod : (w.env .mod).freshen = true
  telling : Telling P
  other (k : Nat) (x : String) : P v →
    v.name ≠ (w.env .mod).names.numbered k x ∧ initFront ++ v.name ≠ (w.env .mod).names.numbered k x

namespace Env

variable {e : Env} {name full : String} {type : Ty} {t : SomeTerm}

theorem gave_plain (h : e.freshen = false) : e.Gave name full ↔ full = name := by
  rw [Gave, h]
  exact Iff.rfl

theorem gave_fresh (h : e.freshen = true) :
    e.Gave name full ↔ ∃ k < e.names.next, full = e.names.numbered k name := by
  rw [Gave, if_pos h]

theorem Grants.const (h : e.Grants name type t) : ∃ n s, t = ⟨s, .const n s⟩ :=
  let ⟨n, s, ht, _⟩ := h
  ⟨n, s, ht⟩

end Env

/-- All constants of later environments are different ones. -/
theorem World.Freshened.distinct {P : Var → Prop} {w w' : World} (h : w.Freshened P)
    (hg : ∀ side, (w.env side).Gives (w'.env side)) (ht : ∀ side, (w'.env side).Tidy)
    (hw : w'.Within P) : Compare.Distinct w' := by
  have horig : (w'.env .orig).freshen = false := (hg .orig).freshen.trans h.orig
  have hmod : (w'.env .mod).freshen = true := (hg .mod).freshen.trans h.mod
  -- a constant of the first program is named like what it is for
  have hplain {x n : String} {a : Ty} {s : TSort} (hx : (w'.env .orig).Grants x a ⟨s, .const n s⟩) :
      n = x := by
    obtain ⟨n', s', hn, -, hgave⟩ := hx
    cases hn
    exact (Env.gave_plain horig).mp hgave
  have hnew {x n : String} {a : Ty} {s : TSort} (hx : (w'.env .mod).Grants x a ⟨s, .const n s⟩) :
      ∃ k, n = (w.env .mod).names.numbered k x := by
    obtain ⟨n', s', hn, -, hgave⟩ := hx
    cases hn
    obtain ⟨k, -, rfl⟩ := (Env.gave_fresh hmod).mp hgave
    refine ⟨k, ?_⟩
    simp only [NameSupply.numbered, NameSupply.fresh, (hg .mod).space]
  -- no constant is one of both programs
  have hcross {x y : String} {a b : Ty} {t : SomeTerm} (hx : (w'.env .orig).Grants x a t)
      (hy : (w'.env .mod).Grants y b t) (hP : ∀ k z, x ≠ (w.env .mod).names.numbered k z) : False := by
    obtain ⟨n, s, rfl⟩ := hx.const
    obtain ⟨k, hk⟩ := hnew hy
    exact hP k y ((hplain hx).symm.trans hk)
  -- nor of a variable and of a value at entry
  have hsame {side : Side} {u v : Var} {t : SomeTerm} (hu : (w'.env side).vars.lookup u = some t)
      (hv : (w'.env side).inits.lookup v = some t) : False := by
    obtain ⟨hname, -⟩ := ((ht side).vars hu).inj ((ht side).inits hv)
    exact h.telling.entry (hw.vars side hu) (hw.inits side hv) hname
  have hvar {u : Var} {t : SomeTerm} (hu : (w'.env .orig).vars.lookup u = some t) (k : Nat)
      (z : String) := (h.other k z (hw.vars .orig hu)).1
  have hentry {u : Var} {t : SomeTerm} (hu : (w'.env .orig).inits.lookup u = some t) (k : Nat)
      (z : String) := (h.other k z (hw.inits .orig hu)).2
  exact {
    vars := fun hu hv => hcross ((ht .orig).vars hu) ((ht .mod).vars hv) (hvar hu)
    const := fun side hv => ((ht side).inits hv).const
    inits := fun side side' hu hv => by
      cases side <;> cases side'
      · exact hsame hu hv
      · exact hcross ((ht .orig).vars hu) ((ht .mod).inits hv) (hvar hu)
      · exact hcross ((ht .orig).inits hv) ((ht .mod).vars hu) (hentry hv)
      · exact hsame hu hv
    entries := fun hu hv => hcross ((ht .orig).inits hu) ((ht .mod).inits hv) (hentry hu) }

namespace Compare

/-- The variables of two programs, of two blocks, and of lists that are compared. -/
inductive Mentions (w : World) (pre post : List Var) (orig mod : Blk) : Var → Prop
  | orig : v ∈ orig.vars → Mentions w pre post orig mod v
  | mod : v ∈ mod.vars → Mentions w pre post orig mod v
  | pre : v ∈ pre → Mentions w pre post orig mod v
  | post : v ∈ post → Mentions w pre post orig mod v
  | arch (side : Side) : v ∈ conventional (w.env side).arch → Mentions w pre post orig mod v
  | sub (side : Side) : s ∈ (w.env side).subs → v ∈ s.vars → Mentions w pre post orig mod v

/-- These variables, and all other names. -/
def mentioned (w : World) (pre post : List Var) (orig mod : Blk) : Vocabulary :=
  ⟨Mentions w pre post orig mod, fun _ => True, fun _ => True, fun _ _ => True⟩

variable {w w' : World} {pre post : List Var} {orig mod : Blk}

theorem mentioned_serves (callee : String) :
    ∀ rule, (mentioned w pre post orig mod).Serves callee rule
  | .contract .. => fun _ _ => True.intro
  | .verifierNondet | .inline _ | .verifierError | .verifierAssume | .empty | .argTerms | .raxOut
  | .chaosRax | .chaosCallerSaved | .default => True.intro

theorem mentioned_covers {b : Blk} (hb : ∀ v ∈ b.vars, Mentions w pre post orig mod v) (name tid : String) :
    (mentioned w pre post orig mod).CoversBlk b ∧
      (mentioned w pre post orig mod).Covers (b.alone name tid) := by
  have hblk : (mentioned w pre post orig mod).CoversBlk b := ⟨hb, fun _ _ _ _ _ => True.intro⟩
  refine ⟨hblk, True.intro, fun v hv => ?_, List.forall_mem_singleton.mpr hblk⟩
  rw [Sub.vars, List.mem_eraseDups] at hv
  simp only [Blk.alone, List.map_nil, List.nil_append, List.flatMap_singleton] at hv
  exact hb v hv

/-- Environments as they are set up refer to variables of their programs. -/
theorem mentioned_governs (hw : w.Fresh) {side : Side} (h : (w.env side).Labels (w'.env side)) :
    (mentioned w pre post orig mod).Governs (w'.env side) := by
  obtain ⟨names, vars, inits, he⟩ := h
  rw [he]
  refine ⟨fun v hv => .arch side hv, fun s hs => ⟨True.intro, fun v hv => .sub side hs hv, fun b hb =>
    ⟨fun v hv => .sub side hs ?_, fun _ _ _ _ _ => True.intro⟩⟩, fun _ _ => mentioned_serves ..,
    fun _ _ => mentioned_serves .., fun hh => ?_, True.intro, fun _ _ _ => True.intro, fun hg => ?_⟩
  · rw [Sub.vars, List.mem_eraseDups]
    exact List.mem_append_right _ (List.mem_flatMap.mpr ⟨b, hb, hv⟩)
  · dsimp only at hh
    rw [hw.handlers] at hh
    cases hh
  · dsimp only at hg
    rw [hw.frame] at hg
    cases hg

end Compare

end Precond
