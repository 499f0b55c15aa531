import EmulatedLightClient.FailingState
import EmulatedLightClient.TestAllocator
import EmulatedLightClient.WriteLogSpec

/-!
# Runs of a write log

A client allocates, writes and releases blocks through a log and keeps track of the blocks which are live and of what
they hold, starting from the contents of the allocator. A commit leaves what the client has kept track of, and a
log which is dropped leaves what was there before.
-/

namespace Memory

namespace WriteLog

variable {A V : Type} [LawfulAllocator A V]

inductive Call (V : Type) where
  | alloc (value : V)
  | set (ptr : Ptr) (value : V)
  | free (ptr : Ptr)

/-- The log with the blocks its client believes to be live. -/
structure Session (A V : Type) where
  log : WriteLog A V
  live : Ptr → Option V

namespace Session

def start (a : A) : Session A V := ⟨new a, cell a⟩

/-- A call; there is none on blocks which are not live. -/
def step (s : Session A V) : Call V → Option (Session A V)
  | .alloc value =>
    match s.log.allocate value with
    | (.ok ptr, log) => some ⟨log, Function.update s.live ptr (some value)⟩
    | (.error _, log) => some { s with log := log }
  | .set ptr value =>
    if (s.live ptr).isSome then some ⟨s.log.set ptr value, Function.update s.live ptr (some value)⟩ else none
  | .free ptr => if (s.live ptr).isSome then some ⟨s.log.free ptr, Function.update s.live ptr none⟩ else none

def run (a : A) (calls : List (Call V)) : Option (Session A V) := calls.foldlM step (start a)

/-- The client is right about what a commit is going to leave. -/
structure Tracks (base : Ptr → Option V) (s : Session A V) : Prop where
  pending : Pending base s.log
  live_eq : s.live = s.log.view

variable {base : Ptr → Option V} {s s' : Session A V}

theorem tracks_start (a : A) : Tracks (cell a) (start a) := ⟨pending_new a, (view_new a).symm⟩

theorem Tracks.step {c : Call V} (h : Tracks base s) (hstep : s.step c = some s') : Tracks base s' := by
  obtain ⟨log, live⟩ := s
  obtain ⟨hpending, hlive⟩ := h
  simp only at hpending hlive
  subst hlive
  cases c with
  | alloc value =>
    have hspec := hpending.allocate value
    simp only [Session.step] at hstep
    split at hstep
    · rename_i ptr log' halloc
      cases hstep
      rw [halloc] at hspec
      exact ⟨hspec.1, hspec.2.2.symm⟩
    · rename_i e log' halloc
      cases hstep
      rw [halloc] at hspec
      exact ⟨hspec.1, hspec.2.symm⟩
  | set ptr value =>
    simp only [Session.step, Option.ite_none_right_eq_some] at hstep
    obtain ⟨hsome, heq⟩ := hstep
    cases heq
    obtain ⟨v, hv⟩ := Option.isSome_iff_exists.mp hsome
    obtain ⟨hpending', hview⟩ := hpending.set hv value
    exact ⟨hpending', hview.symm⟩
  | free ptr =>
    simp only [Session.step, Option.ite_none_right_eq_some] at hstep
    obtain ⟨hsome, heq⟩ := hstep
    cases heq
    obtain ⟨v, hv⟩ := Option.isSome_iff_exists.mp hsome
    obtain ⟨hpending', hview⟩ := hpending.free hv
    exact ⟨hpending', hview.symm⟩

theorem tracks_of_run {a : A} {calls : List (Call V)} (h : run a calls = some s) : Tracks (cell a) s :=
  FailingState.foldlM_invariant (fun _ _ _ ht hstep => Tracks.step ht hstep) (tracks_start a) h

end Session

/-- Blocks are released one after the other, each of them live when its turn comes. -/
inductive FreesLive : A → List Ptr → A → Prop
  | nil {a : A} : FreesLive a [] a
  | cons {a a₁ a' : A} {ptr : Ptr} {ptrs : List Ptr} (hlive : (cell a ptr).isSome)
      (hfree : Allocator.free a ptr = some a₁) (hrest : FreesLive a₁ ptrs a') : FreesLive a (ptr :: ptrs) a'

theorem freesLive_of_freeAll {a a' : A} {ptrs : List Ptr} (hnodup : ptrs.Nodup)
    (hlive : ∀ ptr ∈ ptrs, (cell a ptr).isSome) (h : freeAll a ptrs = some a') : FreesLive a ptrs a' := by
  induction ptrs generalizing a with
  | nil =>
    cases h
    exact .nil
  | cons ptr ptrs ih =>
    obtain ⟨hnew, hnodup⟩ := List.nodup_cons.mp hnodup
    obtain ⟨hptr, hlive⟩ := List.forall_mem_cons.mp hlive
    obtain ⟨a₁, hfree, hrest⟩ := Option.bind_eq_some_iff.mp h
    obtain ⟨v, hv⟩ := Option.isSome_iff_exists.mp hptr
    obtain ⟨a₂, hfree', hcell⟩ := LawfulAllocator.free_of_cell hv
    cases hfree.symm.trans hfree'
    refine .cons hptr hfree (ih hnodup ?_ hrest)
    intro q hq
    have hne : q ≠ ptr := fun he => hnew (he ▸ hq)
    rw [hcell, Function.update_of_ne hne]
    exact hlive q hq

variable {base : Ptr → Option V} {w : WriteLog A V}

theorem Pending.commit_frees (h : Pending base w) {a : A} (hcommit : w.commit = some a) :
    ∃ a₁, setAll w.alloc w.writeLog = some a₁ ∧ FreesLive a₁ w.freed.reverse a := by
  obtain ⟨a₁, hset, hfree⟩ := Option.bind_eq_some_iff.mp hcommit
  obtain ⟨a₂, hset', hcell⟩ := setAll_spec h.written_live
  cases hset.symm.trans hset'
  refine ⟨a₁, hset, freesLive_of_freeAll (List.nodup_reverse.mpr h.freed_nodup) ?_ hfree⟩
  intro ptr hptr
  rw [hcell]
  exact applyAll_isSome (h.freed_live ptr (List.mem_reverse.mp hptr))

/-- After any calls, blocks handed out are not live from the client's view; a commit leaves the live blocks with their
contents and a log which is dropped those of before. Either way only live blocks are released. -/
theorem write_log_exact {a : A} {calls : List (Call V)} {s : Session A V} (h : Session.run a calls = some s) :
    (∀ value ptr log, s.log.allocate value = (.ok ptr, log) → s.live ptr = none) ∧
      (∃ a', s.log.commit = some a' ∧ cell a' = s.live ∧
        ∃ a₁, setAll s.log.alloc s.log.writeLog = some a₁ ∧ FreesLive a₁ s.log.freed.reverse a') ∧
      ∃ a', s.log.drop = some a' ∧ cell a' = cell a ∧ FreesLive s.log.alloc s.log.allocated a' := by
  obtain ⟨hpending, hlive⟩ := Session.tracks_of_run h
  refine ⟨?_, ?_, ?_⟩
  · intro value ptr log halloc
    have hspec := hpending.allocate value
    rw [halloc] at hspec
    rw [hlive]
    exact hspec.2.1
  · obtain ⟨a', hcommit, hcell⟩ := hpending.commit
    exact ⟨a', hcommit, hcell.trans hlive.symm, hpending.commit_frees hcommit⟩
  · obtain ⟨a', hdrop, hcell⟩ := hpending.drop
    exact ⟨a', hdrop, hcell, freesLive_of_freeAll hpending.allocated_nodup hpending.allocated_live hdrop⟩

def firstPtr : Ptr := ⟨1#32, by decide, by decide⟩

/-- A block which is allocated, released, handed out again and written to. -/
def sampleCalls : List (Call Nat) := [.alloc 1, .free firstPtr, .alloc 2, .set firstPtr 3, .alloc 4]

theorem write_log_exact_sample :
    ∃ s, Session.run (TestAllocator.new 2 : TestAllocator Nat) sampleCalls = some s ∧ s.live firstPtr = some 3 ∧
      ∃ a', s.log.commit = some a' ∧ cell a' firstPtr = some 3 := by
  refine ⟨_, rfl, rfl, ?_⟩
  obtain ⟨-, ⟨a', hcommit, hcell, -⟩, -⟩ :=
    write_log_exact (show Session.run (TestAllocator.new 2 : TestAllocator Nat) sampleCalls = some _ from rfl)
  exact ⟨a', hcommit, congrFun hcell firstPtr⟩

end WriteLog

end Memory
