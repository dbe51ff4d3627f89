import DbBackup.Lib.LinkGraph

/-!
Owns following links to their end: a loop that goes from node to node until a node has no
link.

Contract: in a graph with finitely many links the loop ends exactly when it does not come
into a cycle (`ends_iff`).
-/

namespace DbBackup.Lib.LinkGraph

open Relation

variable {α : Type*}

def follow (next : α → Option α) : Nat → α → Option α
  | 0, _ => none
  | fuel + 1, node =>
    match next node with
    | none => some node
    | some target => follow next fuel target

def Ends (next : α → Option α) (start : α) : Prop :=
  ∃ fuel last, follow next fuel start = some last

/-- The links lead from the start into a cycle. -/
def MeetsCycle (next : α → Option α) (start : α) : Prop :=
  ∃ node, ReflTransGen (Link next) start node ∧ TransGen (Link next) node node

variable {next : α → Option α}

theorem ends_of_no_link {node : α} (noLink : next node = none) : Ends next node := by
  refine ⟨1, node, ?_⟩
  rw [follow, noLink]

theorem ends_of_link {node target : α} (link : next node = some target)
    (ends : Ends next target) : Ends next node := by
  obtain ⟨fuel, last, followed⟩ := ends
  refine ⟨fuel + 1, last, ?_⟩
  rw [follow, link]
  exact followed

variable {start : α}

/-- A cycle that is met from a node is met from the node after it. -/
theorem meetsCycle_step (meets : MeetsCycle next start) :
    ∃ target, next start = some target ∧ MeetsCycle next target := by
  obtain ⟨node, reaches, around⟩ := meets
  rcases ReflTransGen.cases_head reaches with rfl | ⟨target, link, onward⟩
  · obtain ⟨target, link, back⟩ := TransGen.head'_iff.mp around
    exact ⟨target, link, start, back, around⟩
  · exact ⟨target, link, node, onward, around⟩

theorem not_meetsCycle_of_follow {fuel : Nat} {start last : α}
    (followed : follow next fuel start = some last) : ¬ MeetsCycle next start := by
  induction fuel generalizing start with
  | zero => exact nomatch followed
  | succ fuel ih =>
    intro meets
    obtain ⟨target, link, onward⟩ := meetsCycle_step meets
    rw [follow, link] at followed
    exact ih followed onward

/-- The nodes with a link that are met from a node. -/
noncomputable def met (next : α → Option α) (carrier : Finset α) (start : α) : Finset α :=
  open Classical in carrier.filter fun node => ReflTransGen (Link next) start node

variable {carrier : Finset α}

theorem met_ssubset (hasLink : ∀ node, next node ≠ none → node ∈ carrier)
    {start target : α} (link : next start = some target) (noCycle : ¬ MeetsCycle next start) :
    met next carrier target ⊂ met next carrier start := by
  classical
  refine Finset.ssubset_iff_of_subset ?_ |>.mpr ⟨start, ?_, ?_⟩
  · intro node member
    obtain ⟨inCarrier, reaches⟩ := Finset.mem_filter.mp member
    exact Finset.mem_filter.mpr ⟨inCarrier, .head link reaches⟩
  · refine Finset.mem_filter.mpr ⟨hasLink start ?_, .refl⟩
    rw [link]
    exact Option.some_ne_none target
  · intro member
    obtain ⟨-, back⟩ := Finset.mem_filter.mp member
    exact noCycle ⟨start, .refl, TransGen.head' link back⟩

/-- Without a cycle each step leaves a node behind that is never met again. -/
theorem ends_of_no_cycle (hasLink : ∀ node, next node ≠ none → node ∈ carrier)
    (noCycle : ¬ MeetsCycle next start) : Ends next start := by
  generalize size : (met next carrier start).card = count
  induction count using Nat.strong_induction_on generalizing start with
  | _ count ih =>
    cases link : next start with
    | none => exact ends_of_no_link link
    | some target =>
      have onward : ¬ MeetsCycle next target := by
        rintro ⟨node, reaches, around⟩
        exact noCycle ⟨node, .head link reaches, around⟩
      have fewer := Finset.card_lt_card (met_ssubset hasLink link noCycle)
      rw [size] at fewer
      exact ends_of_link link (ih _ fewer onward rfl)

theorem ends_iff (hasLink : ∀ node, next node ≠ none → node ∈ carrier)
     : Ends next start ↔ ¬ MeetsCycle next start := by
  constructor
  · rintro ⟨fuel, last, followed⟩
    exact not_meetsCycle_of_follow followed
  · exact ends_of_no_cycle hasLink

end DbBackup.Lib.LinkGraph
