import Mathlib.Algebra.BigOperators.Group.List.Basic
import Mathlib.Algebra.Ring.Nat
import Mathlib.Data.List.Pairwise
import MessagePack.Proofs.Paging

/-!
Runs of an arena. In whatever order runs are taken and slots are filled, every slot of every page
is in one run, every run lies in one page, and a slot holds what was put into it last. No page is
refused while pages and slots are counted in 32 bits.
-/

namespace MessagePack

/-- The id in two words of 32 bits; what is too much for such a word becomes the largest one. -/
def NodeId.narrow (id : NodeId) : NodeId :=
  { page := min id.page (UInt32.size - 1), index := min id.index (UInt32.size - 1) }

theorem NodeId.narrow_of_lt {id : NodeId} (hpage : id.page < UInt32.size)
    (hindex : id.index < UInt32.size) : id.narrow = id := by
  have hkept : ∀ {n : Nat}, n < UInt32.size → min n (UInt32.size - 1) = n := by omega
  rw [narrow, hkept hpage, hkept hindex]

namespace Arena

variable {arena after : Arena} {id other first : NodeId} {node : NodeData}
  {n page capacity : Nat}

/-! The room of the pages. -/

def capacities (arena : Arena) : List Nat :=
  arena.pages.toList.map Page.capacity

theorem capacities_modify (pages : Array Page) (page : Nat) {change : Page → Page}
    (hroom : ∀ held, (change held).capacity = held.capacity) :
    (pages.modify page change).toList.map Page.capacity = pages.toList.map Page.capacity := by
  apply List.ext_getElem?
  intro index
  simp only [List.getElem?_map, Array.getElem?_toList, Array.getElem?_modify]
  split
  · simp only [Option.map_map, Function.comp_def, hroom]
  · rfl

theorem capacities_fill : (arena.fill page n).2.capacities = arena.capacities :=
  capacities_modify arena.pages page fun _ => rfl

theorem capacities_set : (arena.set id node).capacities = arena.capacities :=
  capacities_modify arena.pages id.page fun _ => rfl

theorem capacities_withPage (capacity : Nat) (current? : Option Nat) :
    (arena.withPage capacity current?).capacities = arena.capacities ++ [capacity] := by
  simp [capacities, withPage]

/-- The pages that are there keep their room. -/
theorem capacities_allocate (hn : 0 < n) (hallocate : arena.allocate n = .ok (first, after)) :
    arena.capacities <+: after.capacities := by
  rcases allocate_cases hn hallocate with ⟨page, -, -, hfill⟩ | ⟨capacity, current?, -, -, -, hfill⟩
  · have hsame : (arena.fill page n).2.capacities = arena.capacities := capacities_fill
    rw [hfill] at hsame
    exact ⟨[], by rw [hsame, List.append_nil]⟩
  · have hmore : (fill arena.pages.size n (arena.withPage capacity current?)).2.capacities =
        arena.capacities ++ [capacity] := by rw [capacities_fill, capacities_withPage]
    rw [hfill] at hmore
    exact ⟨[capacity], hmore.symm⟩

/-! What the slots hold. -/

theorem get_eq_slot : arena.get id = (arena.slot? id).getD .empty := by
  cases hpage : arena.pages[id.page]? <;> simp [get, pageAt, slot?, hpage]

theorem get_allocate (hn : 0 < n) (hallocate : arena.allocate n = .ok (first, after)) :
    after.get id = arena.get id := by
  have hextends := allocate_extends hn hallocate
  rw [get_eq_slot, get_eq_slot]
  cases hold : arena.slot? id with
  | some node => rw [hextends.kept hold]
  | none =>
      cases hnew : after.slot? id with
      | none => rfl
      | some node =>
          rcases slot_of_allocate hn hallocate hnew with hfound | ⟨k, hk, rfl⟩
          · cases hold.symm.trans hfound
          · cases hnew.symm.trans (hextends.filled hk)
            rfl

theorem get_set_other (hne : other ≠ id) : (arena.set id node).get other = arena.get other := by
  rw [get_eq_slot, get_eq_slot, slot_set_other hne]

/-! Runs and requests. -/

/-- Consecutive slots of one page. -/
structure Run where
  first : NodeId
  length : Nat
  deriving DecidableEq

def Run.ids (run : Run) : List NodeId :=
  (List.range run.length).map run.first.offset

theorem Run.mem_ids {run : Run} : id ∈ run.ids ↔ ∃ k < run.length, id = run.first.offset k := by
  simp [ids, eq_comm]

/-- The slots of an arena are those of the runs, each that of one run. -/
structure Owned (runs : List Run) (arena : Arena) : Prop where
  nonempty : ∀ run ∈ runs, 0 < run.length
  disjoint : runs.Pairwise fun first second => first.ids.Disjoint second.ids
  slots : ∀ id, (∃ node, arena.slot? id = some node) ↔ ∃ run ∈ runs, id ∈ run.ids

namespace Owned

variable {runs : List Run} {found : NodeData}

theorem start (bytes : Nat) : Owned [] (ofPageBytes bytes) := by
  refine ⟨fun _ hrun => ?_, List.Pairwise.nil, fun id => ?_⟩
  · cases hrun
  · simp [slot?, ofPageBytes]

theorem allocate (howned : Owned runs arena) (hn : 0 < n)
    (hallocate : arena.allocate n = .ok (first, after)) :
    Owned (runs ++ [{ first, length := n }]) after := by
  have hextends := allocate_extends hn hallocate
  refine ⟨?_, ?_, fun id => ⟨?_, ?_⟩⟩
  · intro run hrun
    rcases List.mem_append.mp hrun with hold | hnew
    · exact howned.nonempty run hold
    · rw [List.mem_singleton.mp hnew]
      exact hn
  · refine List.pairwise_append.mpr ⟨howned.disjoint, List.pairwise_singleton _ _, ?_⟩
    intro run hrun last hlast id hid hlater
    -- the slots of the new run were no slots before
    rw [List.mem_singleton.mp hlast] at hlater
    obtain ⟨k, hk, rfl⟩ := Run.mem_ids.mp hlater
    obtain ⟨node, hslot⟩ := (howned.slots _).mpr ⟨run, hrun, hid⟩
    cases (hextends.fresh hk).symm.trans hslot
  · rintro ⟨node, hslot⟩
    rcases slot_of_allocate hn hallocate hslot with hold | hnew
    · obtain ⟨run, hrun, hid⟩ := (howned.slots id).mp ⟨node, hold⟩
      exact ⟨run, List.mem_append_left _ hrun, hid⟩
    · exact ⟨_, List.mem_append_right _ (List.mem_singleton_self _), Run.mem_ids.mpr hnew⟩
  · rintro ⟨run, hrun, hid⟩
    rcases List.mem_append.mp hrun with hold | hnew
    · obtain ⟨node, hslot⟩ := (howned.slots id).mpr ⟨run, hold, hid⟩
      exact ⟨node, hextends.kept hslot⟩
    · rw [List.mem_singleton.mp hnew] at hid
      obtain ⟨k, hk, rfl⟩ := Run.mem_ids.mp hid
      exact ⟨.empty, hextends.filled hk⟩

theorem set (howned : Owned runs arena) (hslot : arena.slot? id = some found) :
    Owned runs (arena.set id node) := by
  refine ⟨howned.nonempty, howned.disjoint, fun other => ?_⟩
  refine Iff.trans ⟨?_, fun ⟨_, hother⟩ => slot_set hother⟩ (howned.slots other)
  rintro ⟨now, hnow⟩
  by_cases hsame : other = id
  · exact ⟨found, hsame ▸ hslot⟩
  · exact ⟨now, (slot_set_other hsame).symm.trans hnow⟩

/-- A run ends in the page it starts in. -/
theorem inside (howned : Owned runs arena) {run : Run} (hrun : run ∈ runs) :
    ∃ page, arena.pages[run.first.page]? = some page ∧
      run.first.index + run.length ≤ page.nodes.size := by
  have hpositive := howned.nonempty run hrun
  have hlast : run.first.offset (run.length - 1) ∈ run.ids :=
    Run.mem_ids.mpr ⟨_, Nat.sub_lt hpositive Nat.one_pos, rfl⟩
  obtain ⟨node, hslot⟩ := (howned.slots _).mpr ⟨run, hrun, hlast⟩
  obtain ⟨page, hpage, hnode⟩ := Option.bind_eq_some_iff.mp hslot
  obtain ⟨hindex, -⟩ := Array.getElem?_eq_some_iff.mp hnode
  refine ⟨page, hpage, ?_⟩
  simp only [NodeId.offset] at hindex
  omega

theorem owner (howned : Owned runs arena) (hslot : arena.slot? id = some node) :
    ∃! run, run ∈ runs ∧ id ∈ run.ids := by
  obtain ⟨run, hrun, hid⟩ := (howned.slots id).mp ⟨node, hslot⟩
  refine ⟨run, ⟨hrun, hid⟩, ?_⟩
  rintro other ⟨hother, hagain⟩
  by_contra hne
  have hsymm : Std.Symm fun first second : Run => first.ids.Disjoint second.ids :=
    ⟨fun _ _ => List.disjoint_symm⟩
  exact howned.disjoint.forall hother hrun hne hagain hid

end Owned

inductive Request where
  | allocate (n : Nat)
  | set (id : NodeId) (node : NodeData)
  deriving DecidableEq

namespace Request

def length? : Request → Option Nat
  | .allocate n => some n
  | .set _ _ => none

def filling? (id : NodeId) : Request → Option NodeData
  | .allocate _ => none
  | .set other node => if other = id then some node else none

/-- The lengths of the runs that are asked for. -/
def lengths (requests : List Request) : List Nat :=
  requests.filterMap length?

theorem sum_lengths_append (earlier later : List Request) :
    (lengths (earlier ++ later)).sum = (lengths earlier).sum + (lengths later).sum := by
  rw [lengths, List.filterMap_append, List.sum_append]
  rfl

/-- What a slot is filled with last. -/
def lastFilling? (id : NodeId) (requests : List Request) : Option NodeData :=
  (requests.filterMap (filling? id)).getLast?

theorem lastFilling_append (id : NodeId) (earlier later : List Request) :
    lastFilling? id (earlier ++ later) = (lastFilling? id later).or (lastFilling? id earlier) := by
  rw [lastFilling?, List.filterMap_append, List.getLast?_append]
  rfl

theorem lastFilling_unset {later : List Request} (hunset : ∀ node, .set id node ∉ later) :
    lastFilling? id later = none := by
  have hnone : later.filterMap (filling? id) = [] := by
    apply List.filterMap_eq_nil_iff.mpr
    intro request hrequest
    cases request with
    | allocate n => rfl
    | set other node =>
        have hne : other ≠ id := fun hsame => hunset node (hsame ▸ hrequest)
        rw [filling?, if_neg hne]
  rw [lastFilling?, hnone, List.getLast?_nil]

end Request

/-- An arena and the runs it has given out, the first one first. -/
structure Ledger where
  arena : Arena
  runs : List Run := []
  deriving DecidableEq

namespace Ledger

def perform (ledger : Ledger) : Request → Except Error Ledger
  | .allocate n => do
      let (first, arena) ← ledger.arena.allocate n
      return { arena, runs := ledger.runs ++ [{ first := first.narrow, length := n }] }
  | .set id node => .ok { ledger with arena := ledger.arena.set id node }

def performAll (ledger : Ledger) (requests : List Request) : Except Error Ledger :=
  requests.foldlM perform ledger

/-- A run has slots, and only slots of runs are filled. -/
def Admits (ledger : Ledger) : Request → Prop
  | .allocate n => 0 < n
  | .set id _ => ∃ run ∈ ledger.runs, id ∈ run.ids

def AdmitsAll (ledger : Ledger) : List Request → Prop
  | [] => True
  | request :: requests =>
      ledger.Admits request ∧
        ∀ after, ledger.perform request = .ok after → after.AdmitsAll requests

instance (ledger : Ledger) : (request : Request) → Decidable (ledger.Admits request)
  | .allocate n => inferInstanceAs (Decidable (0 < n))
  | .set id _ => inferInstanceAs (Decidable (∃ run ∈ ledger.runs, id ∈ run.ids))

instance decidableAdmitsAll (ledger : Ledger) :
    (requests : List Request) → Decidable (ledger.AdmitsAll requests)
  | [] => inferInstanceAs (Decidable True)
  | request :: requests =>
      match hperform : ledger.perform request with
      | .error _ => decidable_of_iff (ledger.Admits request) (by simp [AdmitsAll, hperform])
      | .ok after =>
          have := decidableAdmitsAll after requests
          decidable_of_iff (ledger.Admits request ∧ after.AdmitsAll requests)
            (by simp [AdmitsAll, hperform])

variable {ledger after : Ledger} {request : Request} {requests earlier later : List Request}

theorem perform_allocate_eq_ok (hperform : ledger.perform (.allocate n) = .ok after) :
    ∃ first arena, ledger.arena.allocate n = .ok (first, arena) ∧
      after = { arena, runs := ledger.runs ++ [{ first := first.narrow, length := n }] } := by
  obtain ⟨⟨first, arena⟩, hallocate, hpure⟩ := bind_eq_ok hperform
  exact ⟨first, arena, hallocate, (Except.ok.inj hpure).symm⟩

theorem performAll_append : ledger.performAll (earlier ++ later) =
    ledger.performAll earlier >>= fun between => between.performAll later :=
  List.foldlM_append

theorem admitsAll_append : ledger.AdmitsAll (earlier ++ later) ↔
    ledger.AdmitsAll earlier ∧
      ∀ between, ledger.performAll earlier = .ok between → between.AdmitsAll later := by
  induction earlier generalizing ledger with
  | nil => simp [AdmitsAll, performAll, pure, Except.pure]
  | cons request earlier ih =>
      cases hperform : ledger.perform request with
      | error error => simp [AdmitsAll, performAll, hperform, bind, Except.bind]
      | ok after =>
          have hfirst : ledger.performAll (request :: earlier) = after.performAll earlier := by
            rw [performAll, List.foldlM_cons, hperform]
            rfl
          simp [AdmitsAll, hfirst, hperform, ih, and_assoc]

/-- What is kept from request to request. -/
structure Tallied (requests : List Request) (ledger : Ledger) : Prop where
  sized : ledger.arena.Sized UInt32.size
  pages : ledger.arena.pages.size ≤ ledger.arena.count
  owned : Owned ledger.runs ledger.arena
  lengths : ledger.runs.map Run.length = Request.lengths requests
  count : ledger.arena.count = (Request.lengths requests).sum
  held : ∀ id, ledger.arena.get id = (Request.lastFilling? id requests).getD .empty

namespace Tallied

/-- Ids within the pages are told by two words. -/
theorem narrow (htallied : Tallied requests ledger)
    (htotal : (Request.lengths requests).sum < UInt32.size)
    (hslot : ledger.arena.slot? id = some node) : id.narrow = id := by
  obtain ⟨hpage, page, -, hindex, hroom⟩ := htallied.sized.slot hslot
  have hpages := htallied.pages
  have hcount := htallied.count
  apply NodeId.narrow_of_lt <;> omega

theorem granted (htallied : Tallied requests ledger) : ledger.arena.Granted := by
  have hlimit : UInt32.size * nodeSize ≤ maxReserve := by decide
  exact Nat.le_trans (Nat.mul_le_mul_right _ htallied.sized.regular) hlimit

/-- A run is not refused, and it is in order. -/
theorem allocate (htallied : Tallied requests ledger) (hn : 0 < n)
    (htotal : (Request.lengths (requests ++ [.allocate n])).sum < UInt32.size) :
    ∃ after, ledger.perform (.allocate n) = .ok after ∧
      Tallied (requests ++ [.allocate n]) after := by
  have hlengths : Request.lengths (requests ++ [.allocate n]) = Request.lengths requests ++ [n] :=
    List.filterMap_append
  have hsum : (Request.lengths (requests ++ [.allocate n])).sum = ledger.arena.count + n := by
    rw [hlengths, List.sum_append, List.sum_singleton, htallied.count]
  have hroom : n * nodeSize ≤ maxReserve := by
    have hlimit : UInt32.size * nodeSize ≤ maxReserve := by decide
    exact Nat.le_trans (Nat.mul_le_mul_right _ (by omega)) hlimit
  obtain ⟨first, arena, hallocate⟩ := allocate_ok htallied.granted hroom
  have hextends := allocate_extends hn hallocate
  obtain ⟨-, hgrown⟩ := size_pages_allocate hn hallocate
  have hpages := htallied.pages
  have hcount := hextends.count
  let after : Ledger := { arena, runs := ledger.runs ++ [{ first, length := n }] }
  have hafter : Tallied (requests ++ [.allocate n]) after := by
    refine ⟨htallied.sized.allocate hn (by omega) hallocate, ?_,
      htallied.owned.allocate hn hallocate, ?_, ?_, ?_⟩
    · show arena.pages.size ≤ arena.count
      omega
    · rw [List.map_append, htallied.lengths, hlengths]
      rfl
    · rw [hsum]
      exact hcount
    · intro id
      rw [get_allocate hn hallocate, htallied.held, Request.lastFilling_append]
      rfl
  have hnarrow : first.narrow = first := hafter.narrow htotal (hextends.filled hn)
  refine ⟨after, ?_, hafter⟩
  simp only [Ledger.perform, hallocate, bind, Except.bind, pure, Except.pure, hnarrow, after]

theorem set (htallied : Tallied requests ledger) (hrun : ∃ run ∈ ledger.runs, id ∈ run.ids) :
    Tallied (requests ++ [.set id node]) { ledger with arena := ledger.arena.set id node } := by
  have hlengths : Request.lengths (requests ++ [.set id node]) = Request.lengths requests := by
    rw [Request.lengths, List.filterMap_append]
    exact List.append_nil _
  obtain ⟨found, hfound⟩ := (htallied.owned.slots id).mpr hrun
  refine ⟨htallied.sized.set id node, ?_, htallied.owned.set hfound, ?_, ?_, fun other => ?_⟩
  · exact Nat.le_trans (Nat.le_of_eq (size_pages_set _ id node)) htallied.pages
  · rw [hlengths]
    exact htallied.lengths
  · rw [hlengths]
    exact htallied.count
  · rw [Request.lastFilling_append]
    by_cases hsame : other = id
    · subst hsame
      have hlast : Request.lastFilling? other [.set other node] = some node := by
        simp [Request.lastFilling?, Request.filling?]
      rw [hlast, Option.some_or, Option.getD_some]
      exact get_of_slot (slot_set_same hfound)
    · have hlast : Request.lastFilling? other [.set id node] = none := by
        apply Request.lastFilling_unset
        intro put hput
        cases List.mem_singleton.mp hput
        exact hsame rfl
      rw [hlast, Option.none_or, ← htallied.held]
      exact get_set_other hsame

theorem perform (htallied : Tallied requests ledger) (hadmits : ledger.Admits request)
    (htotal : (Request.lengths (requests ++ [request])).sum < UInt32.size) :
    ∃ after, ledger.perform request = .ok after ∧ Tallied (requests ++ [request]) after := by
  cases request with
  | allocate n => exact htallied.allocate hadmits htotal
  | set id node => exact ⟨_, rfl, htallied.set hadmits⟩

theorem performAll (htallied : Tallied earlier ledger) (hadmits : ledger.AdmitsAll later)
    (htotal : (Request.lengths (earlier ++ later)).sum < UInt32.size) :
    ∃ after, ledger.performAll later = .ok after ∧ Tallied (earlier ++ later) after := by
  induction later generalizing earlier ledger with
  | nil =>
      rw [List.append_nil]
      exact ⟨ledger, rfl, htallied⟩
  | cons request later ih =>
      obtain ⟨hfirst, hothers⟩ := hadmits
      rw [List.append_cons] at htotal ⊢
      have hbelow : (Request.lengths (earlier ++ [request])).sum < UInt32.size := by
        rw [Request.sum_lengths_append] at htotal
        omega
      obtain ⟨between, hperform, hbetween⟩ := htallied.perform hfirst hbelow
      obtain ⟨after, hrun, hafter⟩ := ih hbetween (hothers between hperform) htotal
      refine ⟨after, ?_, hafter⟩
      rw [Ledger.performAll, List.foldlM_cons, hperform]
      exact hrun

theorem start {bytes : Nat} (hbytes : bytes ≤ UInt32.size) :
    Tallied [] { arena := ofPageBytes bytes } := by
  have hregular : (ofPageBytes bytes).pageNodes ≤ UInt32.size :=
    Nat.max_le.mpr ⟨by decide, Nat.le_trans (Nat.div_le_self _ _) hbytes⟩
  exact ⟨sized_ofPageBytes hregular, Nat.le_refl 0, .start bytes, rfl, rfl, fun id => rfl⟩

end Tallied

/-! Runs and pages stay. -/

theorem perform_kept (hadmits : ledger.Admits request)
    (hperform : ledger.perform request = .ok after) :
    ledger.runs <+: after.runs ∧ ledger.arena.capacities <+: after.arena.capacities := by
  cases request with
  | allocate n =>
      obtain ⟨first, arena, hallocate, rfl⟩ := perform_allocate_eq_ok hperform
      exact ⟨List.prefix_append _ _, capacities_allocate hadmits hallocate⟩
  | set id node =>
      cases hperform
      exact ⟨List.prefix_rfl, [], by rw [capacities_set, List.append_nil]⟩

theorem performAll_kept (hadmits : ledger.AdmitsAll requests)
    (hrun : ledger.performAll requests = .ok after) :
    ledger.runs <+: after.runs ∧ ledger.arena.capacities <+: after.arena.capacities := by
  induction requests generalizing ledger with
  | nil =>
      cases hrun
      exact ⟨List.prefix_rfl, List.prefix_rfl⟩
  | cons request requests ih =>
      obtain ⟨hfirst, hothers⟩ := hadmits
      rw [performAll, List.foldlM_cons] at hrun
      obtain ⟨between, hperform, hrest⟩ := bind_eq_ok hrun
      obtain ⟨hruns, hcapacities⟩ := perform_kept hfirst hperform
      obtain ⟨hlater, hroom⟩ := ih (hothers between hperform) hrest
      exact ⟨hruns.trans hlater, hcapacities.trans hroom⟩

/-- What an arena has come to with the requests. -/
structure Accounts (requests : List Request) (ledger : Ledger) : Prop where
  lengths : ledger.runs.map Run.length = Request.lengths requests
  disjoint : ledger.runs.Pairwise fun first second => first.ids.Disjoint second.ids
  inside : ∀ run ∈ ledger.runs, ∃ page, ledger.arena.pages[run.first.page]? = some page ∧
    run.first.index + run.length ≤ page.nodes.size
  words : ∀ run ∈ ledger.runs, ∀ id ∈ run.ids, id.narrow = id
  room : ∀ page ∈ ledger.arena.pages, page.nodes.size ≤ page.capacity
  owner : ∀ {id : NodeId} {page : Page}, ledger.arena.pages[id.page]? = some page →
    id.index < page.nodes.size → ∃! run, run ∈ ledger.runs ∧ id ∈ run.ids
  count : ledger.arena.count = (ledger.runs.map Run.length).sum
  held : ∀ run ∈ ledger.runs, ∀ id ∈ run.ids,
    ledger.arena.get id = (Request.lastFilling? id requests).getD .empty

/-- What the requests leave as it was. -/
structure Keeps (requests : List Request) (before after : Ledger) : Prop where
  runs : before.runs <+: after.runs
  capacities : before.arena.capacities <+: after.arena.capacities
  held : ∀ run ∈ before.runs, ∀ id ∈ run.ids, (∀ node, Request.set id node ∉ requests) →
    after.arena.get id = before.arena.get id

theorem Tallied.accounts (htallied : Tallied requests ledger)
    (htotal : (Request.lengths requests).sum < UInt32.size) : Accounts requests ledger where
  lengths := htallied.lengths
  disjoint := htallied.owned.disjoint
  inside := fun _ => htallied.owned.inside
  words := by
    intro run hrun id hid
    obtain ⟨node, hslot⟩ := (htallied.owned.slots id).mpr ⟨run, hrun, hid⟩
    exact htallied.narrow htotal hslot
  room := by
    intro page hpage
    obtain ⟨number, hnumber⟩ := Array.mem_iff_getElem?.mp hpage
    exact htallied.sized.full hnumber
  owner := by
    intro id page hpage hindex
    exact htallied.owned.owner
      (Option.bind_eq_some_iff.mpr ⟨page, hpage, Array.getElem?_eq_getElem hindex⟩)
  count := by rw [htallied.lengths, htallied.count]
  held := fun _ _ id _ => htallied.held id

/-- No request is refused. The runs of the arena have no slot in common, and no slot is left over;
nothing is lost of what the slots hold, and pages keep to the room that they started with. -/
theorem performAll_accounts {bytes : Nat} (hbytes : bytes ≤ UInt32.size)
    (hadmits : AdmitsAll { arena := ofPageBytes bytes } (earlier ++ later))
    (htotal : (Request.lengths (earlier ++ later)).sum < UInt32.size) :
    ∃ before after, performAll { arena := ofPageBytes bytes } earlier = .ok before ∧
      performAll { arena := ofPageBytes bytes } (earlier ++ later) = .ok after ∧
      Accounts (earlier ++ later) after ∧ Keeps later before after := by
  obtain ⟨hearlier, hlater⟩ := admitsAll_append.mp hadmits
  have hbelow : (Request.lengths earlier).sum < UInt32.size := by
    rw [Request.sum_lengths_append] at htotal
    omega
  obtain ⟨before, hfirst, hbefore⟩ := (Tallied.start hbytes).performAll hearlier hbelow
  rw [List.nil_append] at hbefore
  obtain ⟨after, hrest, hafter⟩ := hbefore.performAll (hlater before hfirst) htotal
  obtain ⟨hruns, hcapacities⟩ := performAll_kept (hlater before hfirst) hrest
  refine ⟨before, after, hfirst, ?_, hafter.accounts htotal, hruns, hcapacities,
    fun run hrun id hid hunset => ?_⟩
  · rw [performAll_append, hfirst]
    exact hrest
  · rw [hafter.held, hbefore.held, Request.lastFilling_append, Request.lastFilling_unset hunset]
    rfl

/-- A run that needs a page of its own, between two that share the page before. -/
theorem performAll_accounts_dedicated :
    ∃ start before after : Ledger, start = { arena := ofPageBytes 320 } ∧
      start.performAll [.allocate 1, .set ⟨0, 0⟩ { tag := .bool true }, .allocate 20] =
        .ok before ∧
      before.performAll [.allocate 2, .set ⟨1, 19⟩ { tag := .uint 7 }, .allocate 7] = .ok after ∧
      after.runs = [⟨⟨0, 0⟩, 1⟩, ⟨⟨1, 0⟩, 20⟩, ⟨⟨0, 1⟩, 2⟩, ⟨⟨2, 0⟩, 7⟩] ∧
      after.arena.count = 30 ∧ after.arena.get ⟨1, 19⟩ = { tag := .uint 7 } ∧
      after.arena.get ⟨0, 0⟩ = before.arena.get ⟨0, 0⟩ := by
  let earlier : List Request := [.allocate 1, .set ⟨0, 0⟩ { tag := .bool true }, .allocate 20]
  let later : List Request := [.allocate 2, .set ⟨1, 19⟩ { tag := .uint 7 }, .allocate 7]
  let start : Ledger := { arena := ofPageBytes 320 }
  have hadmits : start.AdmitsAll (earlier ++ later) := by decide
  have htotal : (Request.lengths (earlier ++ later)).sum < UInt32.size := by decide
  have hbytes : 320 ≤ UInt32.size := by decide
  obtain ⟨before, after, hfirst, hrun, haccounts, hkeeps⟩ :=
    performAll_accounts hbytes hadmits htotal
  have hrest : before.performAll later = .ok after := by
    rw [performAll_append, hfirst] at hrun
    exact hrun
  have hbefore : (start.performAll earlier).map Ledger.runs =
      .ok [⟨⟨0, 0⟩, 1⟩, ⟨⟨1, 0⟩, 20⟩] := by cbv
  have hafter : (start.performAll (earlier ++ later)).map Ledger.runs =
      .ok [⟨⟨0, 0⟩, 1⟩, ⟨⟨1, 0⟩, 20⟩, ⟨⟨0, 1⟩, 2⟩, ⟨⟨2, 0⟩, 7⟩] := by cbv
  rw [hfirst] at hbefore
  rw [hrun] at hafter
  have hheld : before.runs = [⟨⟨0, 0⟩, 1⟩, ⟨⟨1, 0⟩, 20⟩] := Except.ok.inj hbefore
  have hruns : after.runs = [⟨⟨0, 0⟩, 1⟩, ⟨⟨1, 0⟩, 20⟩, ⟨⟨0, 1⟩, 2⟩, ⟨⟨2, 0⟩, 7⟩] :=
    Except.ok.inj hafter
  refine ⟨start, before, after, rfl, hfirst, hrest, hruns, ?_, ?_, ?_⟩
  · rw [haccounts.count, hruns]
    rfl
  · refine haccounts.held ⟨⟨1, 0⟩, 20⟩ ?_ ⟨1, 19⟩ (by decide)
    rw [hruns]
    decide
  · refine hkeeps.held ⟨⟨0, 0⟩, 1⟩ ?_ ⟨0, 0⟩ (by decide) fun node hlater => ?_
    · rw [hheld]
      decide
    · simp [later] at hlater

end Ledger
end Arena
end MessagePack
