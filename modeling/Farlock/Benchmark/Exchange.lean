import Mathlib
import Farlock.Lib.Rendezvous
import Farlock.Memory.LockTable

/-!
# The pairwise exchanges of the benchmark (`include/benchmark/benchmark.h`)

`ExchangeLockTable` and the destructor `~Benchmark` make the same loop over the peers, in increasing
order of their ids; they differ in the value sent and in what is done with the value received.
`Send` and `Receive` are those of `MemoryPool`: a reliable queue pair with infinite retries, so that
a send completes only when the peer has posted the receive it matches.

A node is outside as long as it has not called the function: before `~Benchmark` its worker threads
may still be running.
-/

namespace Farlock

namespace Benchmark

open Rendezvous
open Memory (Pointer)

variable {N : ℕ}

/-- `Send(i, local_locks[0].raw())`; an empty table has no first lock. -/
def sendLock (localLocks : List Pointer) (i : Fin N) : Prog (Fin N) UInt64 Unit :=
  match localLocks with
  | [] => .abort
  | lock :: _ => .put i lock.raw

/-- `ExchangeLockTable` -/
def exchangeLockTable (nodeId : Fin N) (localLocks : List Pointer) (chunkSize : UInt32) :
    Prog (Fin N) UInt64 (List Pointer) :=
  (List.finRange N).foldlM (fun remoteLocks i => if i = nodeId then pure remoteLocks else do
    let lock ← (if nodeId < i then do
        sendLock localLocks i
        .get i
      else do
        let lock ← .get i
        sendLock localLocks i
        pure lock)
    pure (remoteLocks ++ Memory.peerLocks chunkSize localLocks.length (Pointer.ofRaw lock))) []

/-- `~Benchmark` -/
def destroyBenchmark (nodeId : Fin N) : Prog (Fin N) UInt64 Unit :=
  exchange nodeId 0 (fun _ _ _ => ()) (List.finRange N) ()

/-- The system of all nodes in `ExchangeLockTable`. -/
def tableSystem (localLocks : Fin N → List Pointer) (chunkSize : Fin N → UInt32) :
    Lts (Fin N → Node (Fin N) UInt64 (List Pointer)) (Msg (Fin N) UInt64) :=
  system fun x => exchangeLockTable x (localLocks x) (chunkSize x)

/-- The system of all nodes on their way through `~Benchmark`. -/
def destroySystem (N : ℕ) : Lts (Fin N → Node (Fin N) UInt64 Unit) (Msg (Fin N) UInt64) :=
  system destroyBenchmark

/-- Every message of the schedule carries the value of its sender. -/
theorem val_of_mem_pairs {A V : Type} {v : A → V} {l : List A} {m : Msg A V}
    (hm : m ∈ pairs v l) : m.val = v m.src := by
  induction l with
  | nil => cases hm
  | cons a l ih =>
    rcases List.mem_append.1 hm with hm | hm
    · obtain ⟨b, -, hm⟩ := List.mem_flatMap.1 hm
      rcases List.mem_pair.1 hm with rfl | rfl <;> rfl
    · exact ih hm

theorem foldl_append_eq_flatMap {α β : Type} (p : α → Prop) [DecidablePred p] (f : α → List β)
    (l : List α) (r : List β) :
    l.foldl (fun r i => if p i then r else r ++ f i) r =
      r ++ l.flatMap fun i => if p i then [] else f i := by
  induction l generalizing r with
  | nil => simp
  | cons a l ih =>
    rw [List.foldl_cons, ih, List.flatMap_cons]
    split_ifs <;> simp

/-- `local_locks[0]`, null if there is none. -/
def firstLock (localLocks : List Pointer) : Pointer := localLocks.headD Pointer.null

/-- With a first lock, `ExchangeLockTable` exchanges it for those of the others. -/
theorem exchangeLockTable_eq {localLocks : List Pointer} (hne : localLocks ≠ []) (x : Fin N)
    (chunkSize : UInt32) : exchangeLockTable x localLocks chunkSize =
      exchange x (firstLock localLocks).raw (fun remoteLocks _ lock => remoteLocks ++
        Memory.peerLocks chunkSize localLocks.length (Pointer.ofRaw lock)) (List.finRange N) [] := by
  cases localLocks with
  | nil => exact absurd rfl hne
  | cons lock locks => rfl

/-- All nodes with peers have a lock: then `ExchangeLockTable` goes through the pairs in their
order. -/
theorem follows_exchangeLockTable {localLocks : Fin N → List Pointer}
    (hne : 1 < N → ∀ x, localLocks x ≠ []) (x : Fin N) (chunkSize : UInt32) :
    Follows x (pairs (fun i => (firstLock (localLocks i)).raw) (List.finRange N))
      (exchangeLockTable x (localLocks x) chunkSize)
      ((List.finRange N).flatMap fun i => if i = x then [] else
        Memory.peerLocks chunkSize (localLocks x).length (firstLock (localLocks i))) := by
  by_cases hN : 1 < N
  · rw [exchangeLockTable_eq (hne hN x), ← List.nil_append (List.flatMap _ _),
      ← foldl_append_eq_flatMap]
    exact follows_exchange (v := fun i => (firstLock (localLocks i)).raw)
      (List.pairwise_lt_finRange N) (List.mem_finRange x) []
  · -- a node without peers
    obtain rfl : N = 1 := by
      have := x.isLt
      omega
    obtain rfl : x = 0 := Subsingleton.elim x 0
    rfl

/-- The exchanges never get stuck, `ExchangeLockTable` if all nodes with peers have a lock to send.
In `ExchangeLockTable` every value received is the one its sender sent out, and the remote locks are
those of the other nodes in the order of their ids.  Nobody leaves the exchange of `~Benchmark`
before everybody has entered it. -/
theorem pairwise_exchange (N : ℕ) :
    (∀ (localLocks : Fin N → List Pointer) (chunkSize : Fin N → UInt32),
      (1 < N → ∀ x, localLocks x ≠ []) → ∀ tr s, (tableSystem localLocks chunkSize).Run tr s →
      ((∀ x, ∃ r, s x = .run (.ret r)) ∨ ∃ e s', (tableSystem localLocks chunkSize).step s e s') ∧
      (∀ m ∈ tr, m.val = (firstLock (localLocks m.src)).raw) ∧
      ∀ x r, s x = .run (.ret r) → r = (List.finRange N).flatMap fun i => if i = x then [] else
        Memory.peerLocks (chunkSize x) (localLocks x).length (firstLock (localLocks i))) ∧
    (∀ tr s, (destroySystem N).Run tr s →
      ((∀ x, s x = .run (.ret ())) ∨ ∃ e s', (destroySystem N).step s e s') ∧
      ∀ x y p, s x = .run (.ret ()) → s y ≠ .outside p) := by
  have hsorted : (List.finRange N).Pairwise (· < ·) := List.pairwise_lt_finRange N
  constructor
  · intro localLocks chunkSize hne tr s hr
    have hσ := fun x => follows_exchangeLockTable hne x (chunkSize x)
    refine ⟨?_, fun m hm => val_of_mem_pairs (mem_schedule hσ hr hm), fun x r hx => ?_⟩
    · exact (exists_step hσ hr).imp_left fun hret x => ⟨_, hret x⟩
    · exact result_eq hσ hr hx
  · intro tr s hr
    have hσ : ∀ x, Follows x (pairs (fun _ => 0) (List.finRange N)) (destroyBenchmark x) _ :=
      fun x => follows_exchange (v := fun _ => 0) hsorted (List.mem_finRange x) ()
    refine ⟨exists_step hσ hr, fun x y p hx => ?_⟩
    by_cases hxy : x = y
    · subst hxy
      simp [hx]
    · exact started_of_returned hσ hr hx
        (sendsTo_exchange (List.mem_finRange x) hxy _ _) p

/-- The locks of two nodes: one of node 0 and two of node 1. -/
def threeLocks (x : Fin 2) : List Pointer :=
  if x.val = 0 then [Pointer.of 0 64] else [Pointer.of 1 64, Pointer.of 1 128]

/-- Two nodes go through `ExchangeLockTable` to the end, and through `~Benchmark` until node 0 has
left: node 0 posts its send, node 1 its receive, the message is delivered, and then the one of
node 1. -/
theorem pairwise_exchange_two :
    (∃ tr s, (tableSystem threeLocks fun _ => 64).Run tr s ∧ tr.length = 2 ∧
      s 0 = .run (.ret [Pointer.of 1 64]) ∧
      s 1 = .run (.ret [Pointer.of 0 64, Pointer.of 0 128]) ∧
      ∀ m ∈ tr, m.val = (firstLock (threeLocks m.src)).raw) ∧
    ∃ tr s, (destroySystem 2).Run tr s ∧ tr.length = 2 ∧
      s 0 = .run (.ret ()) ∧ (∀ p, s 1 ≠ .outside p) ∧
      ((∀ x, s x = .run (.ret ())) ∨ ∃ e s', (destroySystem 2).step s e s') := by
  obtain ⟨htable, hdestroy⟩ := pairwise_exchange 2
  constructor
  · have h0 : (tableSystem threeLocks fun _ => 64).Run [] fun x => .outside
        (exchangeLockTable x (threeLocks x) 64) := .start fun _ => rfl
    have h1 := h0.next (.start (x := 0) rfl)
    have h2 := h1.next (.post (x := 0) rfl rfl)
    have h3 := h2.next (.start (x := 1) rfl)
    have h4 := h3.next (.post (x := 1) rfl rfl)
    have h5 := h4.next (.deliver (a := 0) (b := 1) rfl rfl)
    have h6 := h5.next (.complete (x := 0) rfl)
    have h7 := h6.next (.post (x := 0) rfl rfl)
    have h8 := h7.next (.complete (x := 1) rfl)
    have h9 := h8.next (.post (x := 1) rfl rfl)
    have h10 := h9.next (.deliver (a := 1) (b := 0) rfl rfl)
    have h11 := h10.next (.complete (x := 0) rfl)
    have h12 := h11.next (.complete (x := 1) rfl)
    exact ⟨_, _, h12, rfl, rfl, rfl, (htable _ _ (by decide) _ _ h12).2.1⟩
  · have h0 : (destroySystem 2).Run [] fun x => .outside (destroyBenchmark x) := .start fun _ => rfl
    have h1 := h0.next (.start (x := 0) rfl)
    have h2 := h1.next (.post (x := 0) rfl rfl)
    have h3 := h2.next (.start (x := 1) rfl)
    have h4 := h3.next (.post (x := 1) rfl rfl)
    have h5 := h4.next (.deliver (a := 0) (b := 1) rfl rfl)
    have h6 := h5.next (.complete (x := 0) rfl)
    have h7 := h6.next (.post (x := 0) rfl rfl)
    have h8 := h7.next (.complete (x := 1) rfl)
    have h9 := h8.next (.post (x := 1) rfl rfl)
    have h10 := h9.next (.deliver (a := 1) (b := 0) rfl rfl)
    have h11 := h10.next (.complete (x := 0) rfl)
    obtain ⟨hstep, hbar⟩ := hdestroy _ _ h11
    exact ⟨_, _, h11, rfl, rfl, fun p => hbar 0 1 p rfl, hstep⟩

/-- Two nodes without locks: node 0 has nothing to send, and node 1 waits for it. -/
theorem exchange_stuck_without_locks : ∃ s, (tableSystem (fun _ : Fin 2 => []) fun _ => 64).Run [] s ∧
    (∀ x r, s x ≠ .run (.ret r)) ∧
    ¬ ∃ e s', (tableSystem (fun _ : Fin 2 => []) fun _ => 64).step s e s' := by
  have h0 : (tableSystem (fun _ : Fin 2 => []) fun _ => 64).Run [] fun x => .outside
      (exchangeLockTable x [] 64) := .start fun _ => rfl
  have h1 := h0.next (.start (x := 0) rfl)
  have h2 := h1.next (.start (x := 1) rfl)
  have h3 := h2.next (.post (x := 1) rfl rfl)
  refine ⟨_, h3, ?_, ?_⟩
  · intro x r hx
    fin_cases x <;> cases hx
  · rintro ⟨e, s', hs⟩
    cases hs with
    | @start x p h => fin_cases x <;> cases h
    | @post x p h hp =>
      fin_cases x
      · cases h
        cases hp
      · cases h
    | @deliver a b v k k' ha hb => fin_cases a <;> cases ha
    | @complete x p h => fin_cases x <;> cases h

end Benchmark

end Farlock
