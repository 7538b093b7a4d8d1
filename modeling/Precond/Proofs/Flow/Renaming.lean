import Precond.Proofs.Flow.Graph
import Precond.Proofs.Run.Renaming

/-! Variables of a subroutine along its paths. Some are assigned on every path from the entry before they
are read (`IR.Sub.Settles`), so that what they are at the entry makes no difference. The graph of a
subroutine does not tell names of variables: that of a renamed subroutine has the same edges
(`Flow.Graph.ofSub_renamed`). -/

namespace Precond

open IR Precond.Flow

namespace IR

/-- The jump is taken whenever it is met, and it is known where: to a block of the subroutine, or out. -/
def Sub.Leads (s : Sub) (j : Jump) : Prop :=
  j.cond = Exp.always ∧ match j.kind with
    | .ret _ | .call _ none => True
    | _ => ∃ t, Flow.Jump.target? j = some t ∧ (s.at? t).isSome

/-- On some path through the subroutine a variable is read before it is assigned: from elements of a block
on, with the block behind it if control may run into that. -/
inductive Sub.Needs (s : Sub) (v : Var) : Option String → List Elt → Prop
  | define : v ∈ d.rhs.freeVars → s.Needs v n (.define d :: es)
  | phi : x ∈ p.values → v ∈ x.2.freeVars → s.Needs v n (.phi p :: es)
  | jump : v ∈ j.cond.freeVars → s.Needs v n (.jump j :: es)
  | defined : d.lhs ≠ v → s.Needs v n es → s.Needs v n (.define d :: es)
  | chosen : p.lhs ≠ v → s.Needs v n es → s.Needs v n (.phi p :: es)
  | passed : ¬ s.Leads j → s.Needs v n es → s.Needs v n (.jump j :: es)
  | taken : Flow.Jump.target? j = some t → s.at? t = some q → s.Needs v (behind? q) q.1.elts →
      s.Needs v n (.jump j :: es)
  | behind : s.at? t = some q → s.Needs v (behind? q) q.1.elts → s.Needs v (some t) []

/-- A variable that may be read from a block on before it is assigned. -/
def Sub.NeedsAt (s : Sub) (v : Var) (t : String) : Prop :=
  ∃ q, s.at? t = some q ∧ s.Needs v (behind? q) q.1.elts

/-- The variable is assigned on every path from the entry before it is read. -/
def Sub.Settles (s : Sub) (v : Var) : Prop := ∀ t, s.first? = some t → ¬ s.NeedsAt v t

theorem Sub.mem_vars_of_at? {s : Sub} {v : Var} (hq : s.at? t = some q) (hv : v ∈ q.1.elts.flatMap Elt.vars) :
    v ∈ s.vars := by
  obtain ⟨b, n⟩ := q
  exact List.mem_eraseDups.mpr (List.mem_append_right _ (List.mem_flatMap.mpr ⟨b, (mem_of_at? hq).1, hv⟩))

theorem Sub.Needs.mem_vars {s : Sub} {v : Var} (h : s.Needs v n es) : v ∈ es.flatMap Elt.vars ∨ v ∈ s.vars := by
  have hhead {e : Elt} {es : List Elt} (h : v ∈ e.vars) : v ∈ (e :: es).flatMap Elt.vars ∨ v ∈ s.vars := by
    rw [List.flatMap_cons]
    exact .inl (List.mem_append_left _ h)
  have htail {e : Elt} {es : List Elt} : v ∈ es.flatMap Elt.vars ∨ v ∈ s.vars →
      v ∈ (e :: es).flatMap Elt.vars ∨ v ∈ s.vars := by
    rw [List.flatMap_cons]
    exact fun h => h.imp_left (List.mem_append_right _)
  induction h with
  | define hd => exact hhead (List.mem_cons_of_mem _ hd)
  | phi hx hp => exact hhead (List.mem_cons_of_mem _ (List.mem_flatMap.mpr ⟨_, hx, hp⟩))
  | jump hj => exact hhead (List.mem_flatMap.mpr ⟨_, List.mem_cons_self, hj⟩)
  | defined _ _ ih | chosen _ _ ih | passed _ _ ih => exact htail ih
  | taken _ hq _ ih | behind hq _ ih => exact .inr (ih.elim (mem_vars_of_at? hq) id)

/-- A variable that the subroutine does not have is not read. -/
theorem Sub.settles_of_not_mem {s : Sub} {v : Var} (h : v ∉ s.vars) : s.Settles v :=
  fun _ _ ⟨_, hq, hneeds⟩ => h (hneeds.mem_vars.elim (mem_vars_of_at? hq) id)

end IR

namespace Flow

variable {ρ : Renaming} {s : Sub} {g : Graph}

/-- The graph of a subroutine whose variables are renamed. -/
def Graph.renamed (g : Graph) (ρ : Renaming) : Graph :=
  { g with sub := ρ.sub g.sub, blocks := g.blocks.map fun e => (e.1, ρ.blk e.2) }

theorem target_jump (j : Jump) : Jump.target? (ρ.jump j) = Jump.target? j := by
  obtain ⟨kind, cond, tid⟩ := j
  cases kind with
  | goto l => cases l <;> rfl
  | call l r =>
    cases r with
    | none => rfl
    | some r => cases r <;> rfl
  | ret | interrupt => rfl

theorem fallsThrough_blk (b : Blk) : fallsThrough (ρ.blk b) = fallsThrough b := by
  rw [fallsThrough, fallsThrough, Renaming.blk, List.getLast?_map]
  cases b.jumps.getLast? with
  | none => rfl
  | some j => exact decide_eq_decide.mpr (not_congr Renaming.exp_eq_always)

theorem fallthroughs_renamed (bs : List Blk) :
    fallthroughs (bs.map ρ.blk) = (fallthroughs bs).map fun e => (ρ.blk e.1, e.2) := by
  induction bs with
  | nil => rfl
  | cons b bs ih =>
    cases bs with
    | nil => rfl
    | cons c rest =>
      have hrest : fallthroughs (ρ.blk c :: rest.map ρ.blk) = _ := ih
      rw [List.map_cons, List.map_cons, fallthroughs, hrest, fallsThrough_blk]
      rfl

theorem put_renamed (t : Table String Blk) (k : String) (b : Blk) :
    Table.put (t.map fun e => (e.1, ρ.blk e.2)) k (ρ.blk b) =
      (t.put k b).map fun e => (e.1, ρ.blk e.2) := by
  induction t with
  | nil => rfl
  | cons e t ih =>
    rw [List.map_cons, Table.put, Table.put]
    split
    · rfl
    · rw [ih, List.map_cons]

theorem blocks_renamed (bs : List Blk) (t : Table String Blk) :
    (bs.map ρ.blk).foldl (fun t b => Table.put t b.tid b) (t.map fun e => (e.1, ρ.blk e.2)) =
      (bs.foldl (fun t b => Table.put t b.tid b) t).map fun e => (e.1, ρ.blk e.2) := by
  induction bs generalizing t with
  | nil => rfl
  | cons b bs ih =>
    rw [List.map_cons, List.foldl_cons, List.foldl_cons, ← ih, ← put_renamed]
    rfl

theorem keys_renamed (t : Table String Blk) :
    Table.keys (t.map fun e => (e.1, ρ.blk e.2)) = t.keys := by
  rw [Table.keys, List.map_map]
  rfl

theorem targets_renamed (t : Table String Blk) (b : Blk) (next : Option String) :
    targets (t.map fun e => (e.1, ρ.blk e.2)) (ρ.blk b) next = targets t b next := by
  have hjumps : (ρ.blk b).jumps.filterMap Jump.target? = b.jumps.filterMap Jump.target? := by
    rw [Renaming.blk, List.filterMap_map]
    exact congrArg (List.filterMap · b.jumps) (funext target_jump)
  rw [targets, targets, keys_renamed, hjumps]

/-- Edges do not tell the names of variables. -/
theorem Graph.ofSub_renamed (ρ : Renaming) (s : Sub) :
    Graph.ofSub (ρ.sub s) = (Graph.ofSub s).map (·.renamed ρ) := by
  obtain ⟨name, tid, addr, args, blks⟩ := s
  cases blks with
  | nil => rfl
  | cons first rest =>
    have hblocks := blocks_renamed (ρ := ρ) (first :: rest) []
    have hfollow := fallthroughs_renamed (ρ := ρ) (first :: rest)
    have houts : (fallthroughs ((first :: rest).map ρ.blk)).map (fun e => (e.1.tid, targets
        (((first :: rest).map ρ.blk).foldl (fun t b => Table.put t b.tid b) []) e.1 e.2)) =
        (fallthroughs (first :: rest)).map (fun e => (e.1.tid, targets
          ((first :: rest).foldl (fun t b => Table.put t b.tid b) []) e.1 e.2)) := by
      rw [hfollow, List.map_map]
      refine List.map_congr_left fun e _ => ?_
      exact congrArg (e.1.tid, ·) ((congrArg (targets · (ρ.blk e.1) e.2) hblocks).trans
        (targets_renamed ..))
    have hfall : (fallthroughs ((first :: rest).map ρ.blk)).foldl
        (fun t e => Table.put t e.1.tid e.2) ([] : Table String (Option String)) =
        (fallthroughs (first :: rest)).foldl (fun t e => Table.put t e.1.tid e.2) [] := by
      rw [hfollow, List.foldl_map]
      rfl
    simp only [List.map_cons, List.map_nil] at hblocks houts hfall
    simp only [Graph.ofSub, Renaming.sub, List.map_cons, houts, hfall]
    rw [hblocks]
    simp only [keys_renamed, List.length_map]
    rfl

/-- The graph has the blocks of the renamed subroutine. -/
theorem Graph.lookup_renamed (g : Graph) (t : String) :
    (g.renamed ρ).blocks.lookup t = (g.blocks.lookup t).map ρ.blk := by
  rw [Graph.renamed]
  induction g.blocks with
  | nil => rfl
  | cons e rest ih =>
    rw [List.map_cons, List.lookup_cons, List.lookup_cons, ih]
    split <;> rfl

end Flow

end Precond
