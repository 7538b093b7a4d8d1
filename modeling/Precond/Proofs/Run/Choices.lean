import Precond.Proofs.Run.Readings

/-! Which way runs go at jumps. A run comes to the jumps of a block one after the other until one is
taken, and of each of them it is told whether it is taken (`IR.Sub.Chooses`). A path tells of some jumps
whether to take them; choices obey it where none of a goto to a named block differs from it
(`IR.Obeys`). -/

namespace Precond.IR

/-- A jump that control comes to, and whether it is taken. -/
structure Choice where
  jump : Jump
  taken : Bool
  deriving DecidableEq, Repr

/-- The choices at jumps, up to the one that is taken. -/
inductive Decides (σ : Store) : List Jump → List Choice → Option Jump → Prop
  | nil : Decides σ [] [] none
  | this : j.cond.Yields σ x → x.nonZero? = some true → Decides σ (j :: js) [⟨j, true⟩] (some j)
  | next : j.cond.Yields σ x → x.nonZero? = some false → Decides σ js cs t →
      Decides σ (j :: js) (⟨j, false⟩ :: cs) t

/-- The choices that the run of a subroutine without calls makes from a block on, and the state in which
it returns. -/
inductive Sub.Chooses (s : Sub) : String → Store → List Choice → Store → Prop
  | out : s.at? t = some (b, behind) → Assigns b.defs σ σ' → Decides σ' b.jumps cs taken →
      Blk.way? behind taken = some .out → s.Chooses t σ cs σ'
  | goto : s.at? t = some (b, behind) → Assigns b.defs σ σ' → Decides σ' b.jumps cs taken →
      Blk.way? behind taken = some (.goto u) → s.Chooses u σ' cs' σ'' → s.Chooses t σ (cs ++ cs') σ''

/-- A goto to a named block is taken as the path tells, if it tells of the jump. -/
def Choice.Obeys (path : Table String Bool) (c : Choice) : Prop :=
  ∀ target, c.jump.kind = .goto (.direct target) → ∀ b, path.lookup c.jump.tid = some b → c.taken = b

def Obeys (path : Table String Bool) (cs : List Choice) : Prop := ∀ c ∈ cs, c.Obeys path

variable {s : Sub} {σ σ₁ σ₂ : Store} {cs cs₁ cs₂ : List Choice} {path : Table String Bool}

theorem obeys_nil : Obeys path [] := nofun

theorem obeys_cons {c : Choice} : Obeys path (c :: cs) ↔ c.Obeys path ∧ Obeys path cs :=
  List.forall_mem_cons

/-- What is asked of each choice is asked of all of them. -/
theorem obeys_foldr (cs : List Choice) (last : Prop) :
    cs.foldr (fun c last => c.Obeys path ∧ last) last ↔ Obeys path cs ∧ last := by
  induction cs with
  | nil => exact (and_iff_right obeys_nil).symm
  | cons c cs ih => rw [List.foldr_cons, ih, obeys_cons, and_assoc]

theorem obeys_append : Obeys path (cs₁ ++ cs₂) ↔ Obeys path cs₁ ∧ Obeys path cs₂ :=
  List.forall_mem_append

/-- The conditions of the jumps are read up to the one that is taken. -/
theorem Decides.selects {js : List Jump} {t : Option Jump} (h : Decides σ js cs t) :
    Selects σ js (cs.flatMap fun c => c.jump.readings σ) t := by
  induction h with
  | nil => exact .nil
  | this hx hz =>
    rw [List.flatMap_cons, List.flatMap_nil, List.append_nil]
    exact .this hx hz
  | next hx hz _ ih => exact .next hx hz ih

theorem Decides.takes {js : List Jump} {t : Option Jump} (h : Decides σ js cs t) : Takes σ js t :=
  h.selects.takes

theorem Decides.unique {js : List Jump} {t₁ t₂ : Option Jump} (hk : js.all (·.cond.known))
    (h : Decides σ js cs₁ t₁) (h' : Decides σ js cs₂ t₂) : cs₁ = cs₂ ∧ t₁ = t₂ := by
  induction h generalizing cs₂ with
  | nil =>
    cases h'
    exact ⟨rfl, rfl⟩
  | this hx hz =>
    rw [List.all_cons, Bool.and_eq_true] at hk
    cases h' with
    | this => exact ⟨rfl, rfl⟩
    | next hx' hz' =>
      cases hx.unique hk.1 hx'
      cases hz.symm.trans hz'
  | next hx hz _ ih =>
    rw [List.all_cons, Bool.and_eq_true] at hk
    cases h' with
    | this hx' hz' =>
      cases hx.unique hk.1 hx'
      cases hz.symm.trans hz'
    | next _ _ h' =>
      obtain ⟨rfl, rfl⟩ := ih hk.2 h'
      exact ⟨rfl, rfl⟩

theorem Defines.assigns {ds : List Def} {reads : List Reading} (h : Defines ds σ reads σ₁) :
    Assigns ds σ σ₁ := by
  induction h with
  | nil => exact .nil
  | cons hx _ ih => exact .cons hx ih

/-- How a run goes on after its first block. -/
theorem Sub.Chooses.inv {t : String} {p : Blk × Option String} {taken : Option Jump} (hk : s.known)
    (hp : s.at? t = some p) (ha : Assigns p.1.defs σ σ₁) (hd : Decides σ₁ p.1.jumps cs₁ taken)
    (h : s.Chooses t σ cs σ₂) :
    match Blk.way? p.2 taken with
    | some .out => cs = cs₁ ∧ σ₂ = σ₁
    | some (.goto u) => ∃ rest, cs = cs₁ ++ rest ∧ s.Chooses u σ₁ rest σ₂
    | _ => False := by
  have hknown := Bool.and_eq_true_iff.mp (List.all_eq_true.mp hk _ (Sub.mem_of_at? hp).1)
  cases h with
  | out hp' ha' hd' hway =>
    cases hp.symm.trans hp'
    cases ha.unique hknown.1 ha'
    obtain ⟨rfl, rfl⟩ := hd.unique hknown.2 hd'
    rw [hway]
    exact ⟨rfl, rfl⟩
  | goto hp' ha' hd' hway h =>
    cases hp.symm.trans hp'
    cases ha.unique hknown.1 ha'
    obtain ⟨rfl, rfl⟩ := hd.unique hknown.2 hd'
    rw [hway]
    exact ⟨_, rfl, h⟩

/-- Without unknown expressions there is one run from a store. -/
theorem Sub.Chooses.unique {t : String} (hk : s.known) (h : s.Chooses t σ cs₁ σ₁)
    (h' : s.Chooses t σ cs₂ σ₂) : cs₂ = cs₁ ∧ σ₂ = σ₁ := by
  induction h generalizing cs₂ with
  | out hp ha hd hway =>
    have hinv := h'.inv hk hp ha hd
    rw [hway] at hinv
    exact hinv
  | goto hp ha hd hway _ ih =>
    have hinv := h'.inv hk hp ha hd
    rw [hway] at hinv
    obtain ⟨rest, rfl, hrest⟩ := hinv
    obtain ⟨rfl, rfl⟩ := ih hrest
    exact ⟨rfl, rfl⟩

/-- Control leaves a block as the taken jump tells, or at its end. -/
theorem Blk.Leaves.of_takes {b : Blk} {behind : Option String} {taken : Option Jump} {w : Way}
    (ha : Assigns b.defs σ σ₁) (ht : Takes σ₁ b.jumps taken) (hw : Blk.way? behind taken = some w) :
    b.Leaves behind σ w σ₁ := by
  cases taken with
  | some j => exact .jump ha ht hw
  | none =>
    cases behind with
    | some t =>
      cases hw
      exact .next ha ht
    | none =>
      cases hw
      exact .last ha ht

/-- The choices are those of a run. -/
theorem Sub.Chooses.runs {t : String} (subs : List Sub) (h : s.Chooses t σ cs σ₁) :
    ∃ trace, Runs subs s t σ trace (.returned σ₁) := by
  induction h with
  | out hp ha hd hway => exact ⟨_, .out (.mk hp (.of_takes ha hd.takes hway))⟩
  | goto hp ha hd hway _ ih =>
    obtain ⟨trace, htrace⟩ := ih
    exact ⟨_, .goto (.mk hp (.of_takes ha hd.takes hway)) htrace⟩

/-- The run of a subroutine from its entry, the only one there is: its choices, and the state in which
it returns. -/
structure Sub.Decisions (s : Sub) (σ : Store) (cs : List Choice) (σ' : Store) : Prop where
  run : ∃ e, s.first? = some e ∧ s.Chooses e σ cs σ'
  only {e : String} {cs' : List Choice} {σ'' : Store} : s.first? = some e → s.Chooses e σ cs' σ'' →
    cs' = cs ∧ σ'' = σ'

end Precond.IR
