import Farlock.Lib.Mcs
import Farlock.Lib.Transition

/-!
# Queues in which the turn is handed over

Processes wait for their turn in queues that are linked as in `Farlock.Lib.Mcs`, but nothing like a
permission to leave exists and the turn itself is a message: each process owns a word, which is empty
(`none`) while it waits, and a process that leaves writes into the word of its `next` whatever it has
to hand over.  A process empties its word before the exchange of the tail or between the exchange and
the store of the link.

* `Handover.lines`: the processes in each queue, computed from what has happened so far;
* `Handover.Inv`: what links the fields to these lists, kept by every step (`Step.inv`);
* `Handover.Shown.first_come`: the processes have their turns in the order in which they came.
-/

namespace Handover

open Mcs (Adj)

variable {H K W : Type}

/-- Neighbours stay neighbours when a list gets longer at its end. -/
theorem adj_mono {l l' : List H} {p n : H} (hl : l <+: l') (hpn : Adj l p n) : Adj l' p n := by
  obtain ⟨i, hp, hn⟩ := hpn
  obtain ⟨t, rfl⟩ := hl
  obtain ⟨hlt, -⟩ := List.getElem?_eq_some_iff.1 hn
  exact ⟨i, by rwa [List.getElem?_append_left (by omega)], by rwa [List.getElem?_append_left hlt]⟩

/-! ### The processes and their steps -/

/-- Where a process is, with the queue it is at work on; the Boolean says that its word has been
emptied. -/
inductive Place (H K : Type)
  | out
  /-- on the way to the queue -/
  | entering (k : K) (armed : Bool)
  /-- `next` is reset, the tail is to be exchanged -/
  | ready (k : K) (armed : Bool)
  /-- behind `p`, which does not know yet -/
  | linking (k : K) (p : H) (armed : Bool)
  /-- written into `next p` -/
  | linked (k : K) (p : H)
  /-- at the front of the queue -/
  | front (k : K)
  /-- taking its turn -/
  | inside (k : K)
  /-- the tail is to be swapped -/
  | leaving (k : K)
  /-- there is a successor, it is to link itself -/
  | closing (k : K)
  /-- `next` is to be loaded -/
  | loading (k : K)
  /-- the turn is to be handed over to `n` -/
  | granting (k : K) (n : H)

/-- The queue in which a process is: it has exchanged the tail and has not left. -/
def Place.queue : Place H K → Option K
  | .linking k _ _ | .linked k _ | .front k | .inside k | .leaving k | .closing k | .loading k
  | .granting k _ => some k
  | _ => none

/-- The process is behind another one, as far as it knows. -/
def Place.Behind : Place H K → Prop
  | .linking _ _ _ | .linked _ _ => True
  | _ => False

/-- The process has taken its turn and has not left yet. -/
def Place.entered : Place H K → Bool
  | .inside _ | .leaving _ | .closing _ | .loading _ | .granting _ _ => true
  | _ => false

/-- The place of a process that has found `t` as the tail. -/
def Place.behind (k : K) (b : Bool) : Option H → Place H K
  | none => .front k
  | some p => .linking k p b

/-- What can be seen of a process. -/
inductive Event (H K : Type)
  /-- the exchange of the tail -/
  | arrive (k : K) (h : H)
  /-- the turn is taken -/
  | enter (k : K) (h : H)
  /-- the turn is handed over, or the queue is left empty -/
  | leave (k : K) (h : H)
  deriving DecidableEq

/-- The tails of the queues and the processes with their fields. -/
structure State (H K W : Type) where
  tail : K → Option H
  place : H → Place H K
  next : H → Option H
  word : H → Option W

/-- Process `h` is in a new place. -/
def State.move [DecidableEq H] (s : State H K W) (h : H) (x : Place H K) : State H K W :=
  { s with place := Function.update s.place h x }

/-- The steps of the processes. -/
inductive Step [DecidableEq H] [DecidableEq K] (s : State H K W) :
    Option (Event H K) → State H K W → Prop
  | call {h : H} {k : K} : s.place h = .out → Step s none (s.move h (.entering k false))
  | write {h : H} {k : K} {v : Option W} : s.place h = .entering k false →
      Step s none { s with word := Function.update s.word h v }
  | arm {h : H} {k : K} : s.place h = .entering k false →
      Step s none { s.move h (.entering k true) with word := Function.update s.word h none }
  | clear {h : H} {k : K} {b : Bool} : s.place h = .entering k b →
      Step s none { s.move h (.ready k b) with next := Function.update s.next h none }
  | join {h : H} {k : K} {b : Bool} : s.place h = .ready k b →
      Step s (some (.arrive k h))
        { s.move h (.behind k b (s.tail k)) with tail := Function.update s.tail k (some h) }
  | armLate {h p : H} {k : K} : s.place h = .linking k p false →
      Step s none { s.move h (.linking k p true) with word := Function.update s.word h none }
  | link {h p : H} {k : K} : s.place h = .linking k p true →
      Step s none { s.move h (.linked k p) with next := Function.update s.next p (some h) }
  | wake {h p : H} {k : K} : s.place h = .linked k p → s.word h ≠ none →
      Step s none (s.move h (.front k))
  | own {h : H} {k : K} {v : Option W} : s.place h = .front k →
      Step s none { s with word := Function.update s.word h v }
  | enter {h : H} {k : K} : s.place h = .front k → Step s (some (.enter k h)) (s.move h (.inside k))
  | leave {h : H} {k : K} : s.place h = .inside k → Step s none (s.move h (.leaving k))
  | close {h : H} {k : K} : s.place h = .inside k → s.next h ≠ none →
      Step s none (s.move h (.loading k))
  | swap {h : H} {k : K} : s.place h = .leaving k → s.tail k = some h →
      Step s (some (.leave k h)) { s.move h .out with tail := Function.update s.tail k none }
  | fail {h : H} {k : K} : s.place h = .leaving k → s.tail k ≠ some h →
      Step s none (s.move h (.closing k))
  | see {h : H} {k : K} : s.place h = .closing k → s.next h ≠ none →
      Step s none (s.move h (.loading k))
  | load {h n : H} {k : K} : s.place h = .loading k → s.next h = some n →
      Step s none (s.move h (.granting k n))
  | grant {h n : H} {k : K} {v : Option W} : s.place h = .granting k n →
      Step s (some (.leave k h)) { s.move h .out with word := Function.update s.word n v }
  | tidy {h : H} : s.place h = .out →
      Step s none { s with next := Function.update s.next h none }

/-- Everybody is outside and the tails are null; the fields of the processes are as they may be. -/
def State.Initial (s : State H K W) : Prop := (∀ k, s.tail k = none) ∧ ∀ h, s.place h = .out

/-- The system of all interleavings. -/
def system (H K W : Type) [DecidableEq H] [DecidableEq K] : Lts (State H K W) (Event H K) where
  init := State.Initial
  step := Step

/-! ### The queues as lists -/

section Lines

variable [DecidableEq K]

/-- What an event does to the lists of the processes in the queues. -/
def Event.apply (Q : K → List H) : Event H K → K → List H
  | .arrive k h => Function.update Q k (Q k ++ [h])
  | .enter _ _ => Q
  | .leave k _ => Function.update Q k (Q k).tail

/-- The same for a step, which may be silent. -/
def advance (Q : K → List H) : Option (Event H K) → K → List H
  | none => Q
  | some e => e.apply Q

@[simp] theorem advance_none (Q : K → List H) : advance Q none = Q := rfl

/-- The processes in the queues after the events `tr`, from the front to the back. -/
def lines (tr : List (Event H K)) : K → List H := tr.foldl Event.apply fun _ => []

theorem lines_append (tr : List (Event H K)) (e : Option (Event H K)) :
    lines (tr ++ e.toList) = advance (lines tr) e := by
  cases e with
  | none => simp [advance]
  | some e => simp [lines, advance]

end Lines

/-! ### The invariant -/

/-- What holds of `p` and its right neighbour `n` in the queue `k`. -/
def Link (s : State H K W) (k : K) (p n : H) : Prop :=
  s.place n = .linking k p false ∧ s.next p = none ∨
    s.word n = none ∧
      (s.place n = .linking k p true ∧ s.next p = none ∨ s.place n = .linked k p ∧ s.next p = some n)

/-- What holds of the first process `h` of the queue `l`. -/
def Front (s : State H K W) (l : List H) (h : H) : Prop :=
  match s.place h with
  | .linking _ _ _ => False
  | .closing _ => l.getLast? ≠ some h
  | .loading _ => s.next h ≠ none
  | .granting _ n => s.next h = some n
  | _ => True

/-- The fields that a process has reset before it exchanges the tail. -/
def Reset (s : State H K W) (h : H) : Prop :=
  match s.place h with
  | .entering _ b => b = true → s.word h = none
  | .ready _ b => s.next h = none ∧ (b = true → s.word h = none)
  | _ => True

/-- The processes in queue `k` are `Q k`, from the front to the back. -/
structure Inv (s : State H K W) (Q : K → List H) : Prop where
  mem_iff : ∀ k h, h ∈ Q k ↔ (s.place h).queue = some k
  nodup : ∀ k, (Q k).Nodup
  tail_eq : ∀ k, s.tail k = (Q k).getLast?
  front : ∀ k h, (Q k).head? = some h → Front s (Q k) h
  link : ∀ k p n, Adj (Q k) p n → Link s k p n
  last : ∀ k h, (Q k).getLast? = some h → s.next h = none
  reset : ∀ h, Reset s h

theorem inv_initial {s : State H K W} (hs : s.Initial) : Inv s fun _ => [] := by
  refine ⟨fun k h => ?_, fun k => List.nodup_nil, fun k => hs.1 k, fun k h hh => ?_,
    fun k p n hpn => ?_, fun k h hh => ?_, fun h => ?_⟩
  · simp [hs.2, Place.queue]
  · cases hh
  · cases hpn.left_mem
  · cases hh
  · simp [Reset, hs.2]

section Inv

variable {s : State H K W} {Q : K → List H} {h p n : H} {k : K}

/-- The tail is null if and only if no process is in the queue. -/
theorem Inv.tail_eq_none_iff (hI : Inv s Q) : s.tail k = none ↔ ∀ h, (s.place h).queue ≠ some k := by
  rw [hI.tail_eq, List.getLast?_eq_none_iff, List.eq_nil_iff_forall_not_mem]
  simp only [hI.mem_iff, ne_eq]

/-- A process is in one queue at most. -/
theorem Inv.queue_unique (hI : Inv s Q) {k' : K} (hk : h ∈ Q k) (hk' : h ∈ Q k') : k' = k := by
  rw [hI.mem_iff] at hk hk'
  exact Option.some.inj (hk'.symm.trans hk)

/-- A process that does not know of a predecessor is the first one. -/
theorem Inv.head?_eq (hI : Inv s Q) (hq : (s.place h).queue = some k) (hb : ¬ (s.place h).Behind) :
    (Q k).head? = some h := by
  obtain hhd | ⟨p, hadj⟩ := Mcs.head?_or_adj ((hI.mem_iff k h).2 hq)
  · exact hhd
  · obtain ⟨hp, -⟩ | ⟨-, ⟨hp, -⟩ | ⟨hp, -⟩⟩ := hI.link k p h hadj <;> simp [hp, Place.Behind] at hb

/-- So is a process to which the turn has been handed over. -/
theorem Inv.head?_eq_of_linked (hI : Inv s Q) (hp : s.place h = .linked k p) (hw : s.word h ≠ none) :
    (Q k).head? = some h := by
  obtain hhd | ⟨p', hadj⟩ := Mcs.head?_or_adj ((hI.mem_iff k h).2 (by rw [hp]; rfl))
  · exact hhd
  · obtain ⟨hp', -⟩ | ⟨hw', -⟩ := hI.link k p' h hadj
    · simp [hp] at hp'
    · exact absurd hw' hw

/-- A process behind another one is its right neighbour. -/
theorem Inv.adj_of_linking {b : Bool} (hI : Inv s Q) (hp : s.place h = .linking k p b) :
    Adj (Q k) p h := by
  obtain hhd | ⟨p', hadj⟩ := Mcs.head?_or_adj ((hI.mem_iff k h).2 (by rw [hp]; rfl))
  · have := hI.front k h hhd
    simp [Front, hp] at this
  · obtain ⟨hp', -⟩ | ⟨-, ⟨hp', -⟩ | ⟨hp', -⟩⟩ := hI.link k p' h hadj <;>
      simp only [hp, Place.linking.injEq, true_and, reduceCtorEq] at hp'
    · rwa [hp'.1]
    · rwa [hp'.1]

/-- Two processes that do not know of a predecessor in one queue are the same. -/
theorem Inv.eq_of_queue (hI : Inv s Q) {g : H} (hq : (s.place h).queue = some k)
    (hq' : (s.place g).queue = some k) (hb : ¬ (s.place h).Behind) (hb' : ¬ (s.place g).Behind) :
    h = g :=
  Option.some.inj ((hI.head?_eq hq hb).symm.trans (hI.head?_eq hq' hb'))

/-- Who is to hand the turn over hands it over to the next process, which waits for it. -/
theorem Inv.granting (hI : Inv s Q) (hp : s.place h = .granting k n) :
    ∃ l, Q k = h :: n :: l ∧ s.place n = .linked k h ∧ s.word n = none := by
  have hhd := hI.head?_eq (h := h) (k := k) (by rw [hp]; rfl) (by simp [hp, Place.Behind])
  have hn : s.next h = some n := by
    simpa only [Front, hp] using hI.front k h hhd
  obtain ⟨l, hl⟩ := List.head?_eq_some_iff.1 hhd
  cases l with
  | nil =>
    have := hI.last k h (by simp [hl])
    simp [hn] at this
  | cons n' l =>
    obtain ⟨-, hnone⟩ | ⟨hw, ⟨-, hnone⟩ | ⟨hpl, hn'⟩⟩ :=
      hI.link k h n' ⟨0, by simp [hl], by simp [hl]⟩
    · simp [hn] at hnone
    · simp [hn] at hnone
    · obtain rfl : n = n' := Option.some.inj (hn.symm.trans hn')
      exact ⟨l, hl, hpl, hw⟩

/-- Who can swap the tail from itself to null is alone in the queue. -/
theorem Inv.swap (hI : Inv s Q) (hp : s.place h = .leaving k) (ht : s.tail k = some h) :
    Q k = [h] := by
  have hhd := hI.head?_eq (h := h) (k := k) (by rw [hp]; rfl) (by simp [hp, Place.Behind])
  obtain ⟨l, hl⟩ := List.head?_eq_some_iff.1 hhd
  cases l with
  | nil => exact hl
  | cons n l =>
    have hadj : Adj (Q k) h n := ⟨0, by simp [hl], by simp [hl]⟩
    exact absurd ((hI.tail_eq k).symm.trans ht) (hadj.ne_getLast? (hI.nodup k))

end Inv

/-! ### The steps keep the invariant -/

section Step

variable [DecidableEq H] {s : State H K W} {Q : K → List H} {h p n : H} {k : K}

/-- A process that is in no queue may do to itself what it wants. -/
theorem Inv.outside {x : Place H K} {a : Option H} {b : Option W} (hI : Inv s Q)
    (hq : (s.place h).queue = none) (hx : x.queue = none)
    (hr : Reset ⟨s.tail, Function.update s.place h x, Function.update s.next h a,
      Function.update s.word h b⟩ h) :
    Inv ⟨s.tail, Function.update s.place h x, Function.update s.next h a,
      Function.update s.word h b⟩ Q := by
  have hne : ∀ {k g}, g ∈ Q k → g ≠ h := by
    rintro k g hg rfl
    rw [hI.mem_iff, hq] at hg
    cases hg
  refine ⟨fun k g => ?_, hI.nodup, hI.tail_eq, fun k g hg => ?_, fun k p n hpn => ?_,
    fun k g hg => ?_, fun g => ?_⟩
  · by_cases hg : g = h
    · subst hg
      simp [hI.mem_iff, hq, hx]
    · simp [hI.mem_iff, Function.update_of_ne hg]
  · have hgh := hne (List.mem_of_head? hg)
    simpa only [Front, Function.update_of_ne hgh] using hI.front k g hg
  · have hp := hne hpn.left_mem
    have hn := hne hpn.right_mem
    simpa only [Link, Function.update_of_ne hp, Function.update_of_ne hn] using hI.link k p n hpn
  · have hgh := hne (List.mem_of_getLast? hg)
    simpa only [Function.update_of_ne hgh] using hI.last k g hg
  · by_cases hg : g = h
    · rwa [hg]
    · simpa only [Reset, Function.update_of_ne hg] using hI.reset g

/-- The first process of a queue moves on in it, and may write its own word. -/
theorem Inv.front_move {x : Place H K} {v : Option W} (hI : Inv s Q) (hhd : (Q k).head? = some h)
    (hx : x.queue = some k)
    (hf : Front { s.move h x with word := Function.update s.word h v } (Q k) h) :
    Inv { s.move h x with word := Function.update s.word h v } Q := by
  have hq : (s.place h).queue = some k := (hI.mem_iff k h).1 (List.mem_of_head? hhd)
  refine ⟨fun k' g => ?_, hI.nodup, hI.tail_eq, fun k' g hg => ?_, fun k' p n hpn => ?_,
    hI.last, fun g => ?_⟩
  · by_cases hg : g = h
    · subst hg
      simp [State.move, hI.mem_iff, hq, hx]
    · simp [State.move, hI.mem_iff, Function.update_of_ne hg]
  · by_cases hgh : g = h
    · subst hgh
      rwa [hI.queue_unique (List.mem_of_head? hhd) (List.mem_of_head? hg)]
    · simpa only [Front, State.move, Function.update_of_ne hgh] using hI.front k' g hg
  · have hnh : n ≠ h := by
      rintro rfl
      obtain rfl := hI.queue_unique (List.mem_of_head? hhd) hpn.right_mem
      exact hpn.ne_head? (hI.nodup k') hhd
    simpa only [Link, State.move, Function.update_of_ne hnh] using hI.link k' p n hpn
  · by_cases hg : g = h
    · subst hg
      cases x <;> simp_all [Reset, State.move, Place.queue]
    · simpa only [Reset, State.move, Function.update_of_ne hg] using hI.reset g

/-- The same without a store. -/
theorem Inv.front_goto {x : Place H K} (hI : Inv s Q) (hhd : (Q k).head? = some h)
    (hx : x.queue = some k) (hf : Front (s.move h x) (Q k) h) : Inv (s.move h x) Q := by
  have key := hI.front_move (x := x) (v := s.word h) hhd hx
  simp only [Function.update_eq_self] at key
  exact key hf

/-- A process behind `p` writes into its own word or into `next p`, and nothing but the link between
the two changes. -/
theorem Inv.behind_move {x : Place H K} {a : Option H} {b : Option W} (hI : Inv s Q)
    (hpn : Adj (Q k) p h) (hx : x.queue = some k)
    (hl : Link ⟨s.tail, Function.update s.place h x, Function.update s.next p a,
      Function.update s.word h b⟩ k p h)
    (ha : ∀ n, s.next p = some n → a = some n) :
    Inv ⟨s.tail, Function.update s.place h x, Function.update s.next p a,
      Function.update s.word h b⟩ Q := by
  have hnd := hI.nodup k
  have hh : h ∈ Q k := hpn.right_mem
  have hp : p ∈ Q k := hpn.left_mem
  have hqh : (s.place h).queue = some k := (hI.mem_iff k h).1 hh
  have hqp : (s.place p).queue = some k := (hI.mem_iff k p).1 hp
  have hph : p ≠ h := hpn.ne hnd
  refine ⟨fun k' g => ?_, hI.nodup, hI.tail_eq, fun k' g hg => ?_, fun k' p' n hpn' => ?_,
    fun k' g hg => ?_, fun g => ?_⟩
  · by_cases hg : g = h
    · subst hg
      simp [hI.mem_iff, hqh, hx]
    · simp [hI.mem_iff, Function.update_of_ne hg]
  · have hgh : g ≠ h := by
      rintro rfl
      obtain rfl := hI.queue_unique hh (List.mem_of_head? hg)
      exact hpn.ne_head? hnd hg
    by_cases hgp : g = p
    · subst hgp
      have hfr := hI.front k' g hg
      unfold Front at hfr ⊢
      simp only [Function.update_of_ne hgh, Function.update_self]
      cases hpl : s.place g <;> simp only [hpl] at hfr ⊢ <;> try exact hfr
      · obtain ⟨n, hn⟩ := Option.ne_none_iff_exists'.1 hfr
        simp [ha n hn]
      · exact ha _ hfr
    · simpa only [Front, Function.update_of_ne hgh, Function.update_of_ne hgp] using hI.front k' g hg
  · by_cases hp' : p' = p
    · subst hp'
      obtain rfl := hI.queue_unique hp hpn'.left_mem
      obtain rfl := hpn.right_unique hnd hpn'
      exact hl
    · have hn : n ≠ h := by
        rintro rfl
        obtain rfl := hI.queue_unique hh hpn'.right_mem
        exact hp' (hpn'.left_unique hnd hpn)
      simpa only [Link, Function.update_of_ne hp', Function.update_of_ne hn] using hI.link k' p' n hpn'
  · have hgp : g ≠ p := by
      rintro rfl
      obtain rfl := hI.queue_unique hp (List.mem_of_getLast? hg)
      exact hpn.ne_getLast? hnd hg
    simpa only [Function.update_of_ne hgp] using hI.last k' g hg
  · by_cases hgh : g = h
    · subst hgh
      cases x <;> simp_all [Reset, Place.queue]
    · by_cases hgp : g = p
      · subst hgp
        unfold Reset
        simp only [Function.update_of_ne hgh]
        cases hpl : s.place g <;> simp_all [Place.queue]
      · simpa only [Reset, Function.update_of_ne hgh, Function.update_of_ne hgp] using hI.reset g

variable [DecidableEq K]

/-- A process that exchanges the tail is the last one of the queue. -/
theorem Inv.join {b : Bool} (hI : Inv s Q) (hp : s.place h = .ready k b) :
    Inv { s.move h (.behind k b (s.tail k)) with tail := Function.update s.tail k (some h) }
      (Function.update Q k (Q k ++ [h])) := by
  have hnot : ∀ k', h ∉ Q k' := by
    intro k' hmem
    rw [hI.mem_iff, hp] at hmem
    cases hmem
  have hne : ∀ {k' g}, g ∈ Q k' → g ≠ h := by
    rintro k' g hg rfl
    exact hnot k' hg
  obtain ⟨hnext, hword⟩ : s.next h = none ∧ (b = true → s.word h = none) := by
    simpa only [Reset, hp] using hI.reset h
  have hq : (Place.behind k b (s.tail k)).queue = some k := by
    cases s.tail k <;> rfl
  -- the links between the old processes stay
  have hold : ∀ k' p n, Adj (Q k') p n → Link { s.move h (.behind k b (s.tail k)) with
      tail := Function.update s.tail k (some h) } k' p n := by
    intro k' p n hpn
    simpa only [Link, State.move, Function.update_of_ne (hne hpn.right_mem)] using hI.link k' p n hpn
  refine ⟨fun k' g => ?_, fun k' => ?_, fun k' => ?_, fun k' g hg => ?_, fun k' p n hpn => ?_,
    fun k' g hg => ?_, fun g => ?_⟩
  · simp only [State.move]
    by_cases hg : g = h
    · subst hg
      simp only [Function.update_self, hq, Option.some.injEq]
      by_cases hk : k' = k
      · subst hk
        simp
      · simp [Function.update_of_ne hk, hnot k', Ne.symm hk]
    · rw [Function.update_of_ne hg, ← hI.mem_iff]
      by_cases hk : k' = k
      · subst hk
        simp [hg]
      · rw [Function.update_of_ne hk]
  · by_cases hk : k' = k
    · subst hk
      rw [Function.update_self]
      simpa using (hI.nodup k').concat (hnot k')
    · rw [Function.update_of_ne hk]
      exact hI.nodup k'
  · by_cases hk : k' = k
    · subst hk
      simp
    · simp only [Function.update_of_ne hk]
      exact hI.tail_eq k'
  · by_cases hk : k' = k
    · subst hk
      rw [Function.update_self] at hg ⊢
      rw [List.head?_append] at hg
      cases hhd : (Q k').head? with
      | none =>
        -- the queue was empty, the process has found a null tail
        have hnil : Q k' = [] := List.head?_eq_none_iff.1 hhd
        obtain rfl : h = g := by simpa [hhd] using hg
        simp [Front, State.move, hI.tail_eq, hnil, Place.behind]
      | some g' =>
        obtain rfl : g' = g := by simpa [hhd] using hg
        have hgh := hne (List.mem_of_head? hhd)
        have hfr := hI.front k' g' hhd
        unfold Front at hfr ⊢
        simp only [State.move, Function.update_of_ne hgh]
        cases hpl : s.place g' <;> simp only [hpl] at hfr ⊢ <;>
          first | exact hfr | simpa using Ne.symm hgh
    · rw [Function.update_of_ne hk] at hg ⊢
      have hgh := hne (List.mem_of_head? hg)
      simpa only [Front, State.move, Function.update_of_ne hgh] using hI.front k' g hg
  · by_cases hk : k' = k
    · subst hk
      rw [Function.update_self] at hpn
      obtain hpn | ⟨hlast, rfl⟩ := Mcs.adj_concat hpn
      · exact hold k' p n hpn
      · have hnp := hI.last k' p hlast
        cases b <;>
          simp [Link, State.move, hI.tail_eq, hlast, Place.behind, hnp, hword]
    · rw [Function.update_of_ne hk] at hpn
      exact hold k' p n hpn
  · by_cases hk : k' = k
    · subst hk
      obtain rfl : h = g := by simpa using hg
      exact hnext
    · rw [Function.update_of_ne hk] at hg
      exact hI.last k' g hg
  · by_cases hg : g = h
    · subst hg
      cases s.tail k <;> simp [Reset, State.move, Place.behind]
    · simpa only [Reset, State.move, Function.update_of_ne hg] using hI.reset g

/-- The first process leaves the queue, and something is written into the word of the next one, if
there is one. -/
theorem Inv.depart {l : List H} {t : K → Option H} {w : H → Option W} (hI : Inv s Q)
    (hl : Q k = h :: l) (ht : ∀ k', t k' = if k' = k then l.getLast? else s.tail k')
    (hw : ∀ g, l.head? ≠ some g → w g = s.word g)
    (hn : ∀ n, l.head? = some n → s.place n = .linked k h) :
    Inv { s.move h .out with tail := t, word := w } (Function.update Q k l) := by
  have hnd := hI.nodup k
  rw [hl, List.nodup_cons] at hnd
  have hsub : ∀ {k' g}, g ∈ Function.update Q k l k' → g ∈ Q k' := by
    intro k' g hg
    by_cases hk : k' = k
    · subst hk
      rw [Function.update_self] at hg
      rw [hl]
      exact List.mem_cons_of_mem h hg
    · rwa [Function.update_of_ne hk] at hg
  have hne : ∀ {k' g}, g ∈ Function.update Q k l k' → g ≠ h := by
    rintro k' g hg rfl
    obtain rfl := hI.queue_unique (h := g) (k := k) (by simp [hl]) (hsub hg)
    rw [Function.update_self] at hg
    exact hnd.1 hg
  -- nothing is written in another queue
  have hold : ∀ {k' g}, k' ≠ k → g ∈ Q k' → w g = s.word g := by
    intro k' g hk hg
    refine hw g fun hhd => hk ?_
    exact hI.queue_unique (h := g) (by rw [hl]; exact List.mem_cons_of_mem h (List.mem_of_head? hhd)) hg
  refine ⟨fun k' g => ?_, fun k' => ?_, fun k' => ?_, fun k' g hg => ?_, fun k' p n hpn => ?_,
    fun k' g hg => ?_, fun g => ?_⟩
  · by_cases hg : g = h
    · subst hg
      simpa [State.move, Place.queue] using fun hmem => hne hmem rfl
    · simp only [State.move, Function.update_of_ne hg]
      rw [← hI.mem_iff]
      by_cases hk : k' = k
      · subst hk
        rw [Function.update_self, hl, List.mem_cons, or_iff_right hg]
      · rw [Function.update_of_ne hk]
  · by_cases hk : k' = k
    · subst hk
      rw [Function.update_self]
      exact hnd.2
    · rw [Function.update_of_ne hk]
      exact hI.nodup k'
  · show t k' = _
    rw [ht]
    by_cases hk : k' = k
    · subst hk
      simp
    · simp [hk, hI.tail_eq]
  · have hgh := hne (List.mem_of_head? hg)
    by_cases hk : k' = k
    · subst hk
      rw [Function.update_self] at hg
      simp [Front, State.move, Function.update_of_ne hgh, hn g hg]
    · rw [Function.update_of_ne hk] at hg ⊢
      simpa only [Front, State.move, Function.update_of_ne hgh] using hI.front k' g hg
  · have hnh := hne hpn.right_mem
    by_cases hk : k' = k
    · subst hk
      rw [Function.update_self] at hpn
      have hwn : w n = s.word n := hw n (hpn.ne_head? hnd.2)
      have hlink := hI.link k' p n (hl ▸ hpn.cons)
      simpa only [Link, State.move, Function.update_of_ne hnh, hwn] using hlink
    · rw [Function.update_of_ne hk] at hpn
      have hwn : w n = s.word n := hold hk hpn.right_mem
      simpa only [Link, State.move, Function.update_of_ne hnh, hwn] using hI.link k' p n hpn
  · apply hI.last k' g
    by_cases hk : k' = k
    · subst hk
      rw [Function.update_self] at hg
      rw [hl, List.getLast?_cons, hg]
      rfl
    · rwa [Function.update_of_ne hk] at hg
  · by_cases hg : g = h
    · subst hg
      simp [Reset, State.move]
    · by_cases hhd : l.head? = some g
      · simp [Reset, State.move, Function.update_of_ne hg, hn g hhd]
      · simpa only [Reset, State.move, Function.update_of_ne hg, hw g hhd] using hI.reset g

/-- Every step of a process keeps the invariant. -/
theorem Step.inv {s' : State H K W} {e : Option (Event H K)} (hs : Step s e s') (hI : Inv s Q) :
    Inv s' (advance Q e) := by
  cases hs with
  | @call h k hp =>
    simpa [State.move] using hI.outside (h := h) (x := .entering k false) (a := s.next h)
      (b := s.word h) (by rw [hp]; rfl) rfl (by simp [Reset])
  | @write h k v hp =>
    have key := hI.outside (h := h) (x := .entering k false) (a := s.next h)
      (b := v) (by rw [hp]; rfl) rfl (by simp [Reset])
    rw [← hp] at key
    simpa only [advance_none, Function.update_eq_self] using key
  | @arm h k hp =>
    simpa [State.move] using hI.outside (h := h) (x := .entering k true) (a := s.next h)
      (b := none) (by rw [hp]; rfl) rfl (by simp [Reset])
  | @clear h k b hp =>
    have hr : b = true → s.word h = none := by simpa only [Reset, hp] using hI.reset h
    simpa [State.move] using hI.outside (h := h) (x := .ready k b) (a := none)
      (b := s.word h) (by rw [hp]; rfl) rfl (by simpa [Reset] using hr)
  | @join h k b hp => exact hI.join hp
  | @armLate h p k hp =>
    have hadj := hI.adj_of_linking hp
    have hnone : s.next p = none := by
      obtain ⟨-, hn⟩ | ⟨-, ⟨hp', -⟩ | ⟨hp', -⟩⟩ := hI.link k p h hadj
      · exact hn
      · simp [hp] at hp'
      · simp [hp] at hp'
    simpa [State.move] using hI.behind_move (x := .linking k p true) (a := s.next p)
      (b := none) hadj rfl (by simp [Link, hnone]) (fun _ h => h)
  | @link h p k hp =>
    have hadj := hI.adj_of_linking hp
    obtain ⟨hw, hnone⟩ : s.word h = none ∧ s.next p = none := by
      obtain ⟨hp', -⟩ | ⟨hw, ⟨-, hn⟩ | ⟨hp', -⟩⟩ := hI.link k p h hadj
      · simp [hp] at hp'
      · exact ⟨hw, hn⟩
      · simp [hp] at hp'
    simpa [State.move] using hI.behind_move (x := .linked k p) (a := some h)
      (b := s.word h) hadj rfl (by simp [Link, hw]) (by simp [hnone])
  | @wake h p k hp hw =>
    exact hI.front_goto (hI.head?_eq_of_linked hp hw) rfl (by simp [Front, State.move])
  | @own h k v hp =>
    have hhd := hI.head?_eq (h := h) (k := k) (by rw [hp]; rfl) (by simp [hp, Place.Behind])
    have key := hI.front_move (x := .front k) (v := v) hhd rfl (by simp [Front, State.move])
    rw [← hp] at key
    simpa only [advance_none, State.move, Function.update_eq_self] using key
  | @enter h k hp =>
    have hhd := hI.head?_eq (h := h) (k := k) (by rw [hp]; rfl) (by simp [hp, Place.Behind])
    exact hI.front_goto hhd rfl (by simp [Front, State.move])
  | @leave h k hp =>
    have hhd := hI.head?_eq (h := h) (k := k) (by rw [hp]; rfl) (by simp [hp, Place.Behind])
    exact hI.front_goto hhd rfl (by simp [Front, State.move])
  | @close h k hp hn =>
    have hhd := hI.head?_eq (h := h) (k := k) (by rw [hp]; rfl) (by simp [hp, Place.Behind])
    exact hI.front_goto hhd rfl (by simpa [Front, State.move] using hn)
  | @swap h k hp ht =>
    have hl := hI.swap hp ht
    have key := hI.depart (t := Function.update s.tail k none) (w := s.word) hl
      (fun k' => by simp [Function.update_apply]) (fun _ _ => rfl) (by simp)
    simpa only [State.move, advance, Event.apply, hl, List.tail_cons] using key
  | @fail h k hp ht =>
    have hhd := hI.head?_eq (h := h) (k := k) (by rw [hp]; rfl) (by simp [hp, Place.Behind])
    refine hI.front_goto hhd rfl ?_
    rw [hI.tail_eq] at ht
    simpa [Front, State.move] using ht
  | @see h k hp hn =>
    have hhd := hI.head?_eq (h := h) (k := k) (by rw [hp]; rfl) (by simp [hp, Place.Behind])
    exact hI.front_goto hhd rfl (by simpa [Front, State.move] using hn)
  | @load h n k hp hn =>
    have hhd := hI.head?_eq (h := h) (k := k) (by rw [hp]; rfl) (by simp [hp, Place.Behind])
    exact hI.front_goto hhd rfl (by simpa [Front, State.move] using hn)
  | @grant h n k v hp =>
    obtain ⟨l, hl, hn, -⟩ := hI.granting hp
    have key := hI.depart (t := s.tail) (w := Function.update s.word n v) hl (fun k' => ?_)
      (fun g hg => Function.update_of_ne (by simpa [eq_comm] using hg) _ _) (by simpa using hn)
    · simpa only [State.move, advance, Event.apply, hl, List.tail_cons] using key
    · split_ifs with hk
      · subst hk
        rw [hI.tail_eq, hl, List.getLast?_cons_cons]
      · rfl
  | @tidy h hp =>
    have key := hI.outside (h := h) (x := .out) (a := none) (b := s.word h) (by rw [hp]; rfl) rfl
      (by simp [Reset])
    rw [← hp] at key
    simpa only [advance_none, Function.update_eq_self] using key

end Step

/-! ### Nobody sleeps for ever -/

/-- The first process of a queue has got the turn, even if it has not seen that yet. -/
def Awake (s : State H K W) (Q : K → List H) : Prop :=
  ∀ k h p, (Q k).head? = some h → s.place h = .linked k p → s.word h ≠ none

section Awake

variable [DecidableEq H] [DecidableEq K] {s s' : State H K W} {Q : K → List H} {e : Option (Event H K)}

omit [DecidableEq K] [DecidableEq H] in
/-- A process that may have moved, and that is not waiting for the turn now, wakes nobody and puts
nobody to sleep. -/
theorem Awake.move {t : State H K W} {h : H} (hA : Awake s Q)
    (hpl : ∀ g, g ≠ h → t.place g = s.place g) (hw : ∀ g, g ≠ h → t.word g = s.word g)
    (hh : ∀ k p, (Q k).head? = some h → t.place h ≠ .linked k p) : Awake t Q := by
  intro k g p hhd hp
  have hg : g ≠ h := by
    rintro rfl
    exact hh k p hhd hp
  rw [hw g hg]
  exact hA k g p hhd (hpl g hg ▸ hp)

/-- Whoever is the first one after an exchange of the tail has been so before, or is at the front. -/
theorem Awake.join {h : H} {k : K} {b : Bool} (hA : Awake s Q) :
    Awake { s.move h (.behind k b (s.tail k)) with tail := Function.update s.tail k (some h) }
      (Function.update Q k (Q k ++ [h])) := by
  intro k' g p hhd hpl
  have hg : g ≠ h := by
    rintro rfl
    cases ht : s.tail k <;> simp [State.move, ht, Place.behind] at hpl
  simp only [State.move, Function.update_of_ne hg] at hpl ⊢
  refine hA k' g p ?_ hpl
  by_cases hk : k' = k
  · subst hk
    cases hQ : Q k' with
    | nil => simp [hQ, Ne.symm hg] at hhd
    | cons g' l => simpa [hQ] using hhd
  · rwa [Function.update_of_ne hk] at hhd

/-- Who gets the turn is awake if something has been handed over. -/
theorem Awake.depart {h : H} {k : K} {l : List H} {t : K → Option H} {w : H → Option W}
    (hI : Inv s Q) (hA : Awake s Q) (hl : Q k = h :: l) (hw : ∀ g, l.head? ≠ some g → w g = s.word g)
    (hn : ∀ n, l.head? = some n → w n ≠ none) :
    Awake { s.move h .out with tail := t, word := w } (Function.update Q k l) := by
  intro k' g p hhd hpl
  by_cases hk : k' = k
  · subst hk
    rw [Function.update_self] at hhd
    exact hn g hhd
  · rw [Function.update_of_ne hk] at hhd
    have hgk := List.mem_of_head? hhd
    have hg : g ≠ h := by
      rintro rfl
      exact hk (hI.queue_unique (by simp [hl]) hgk)
    simp only [State.move, Function.update_of_ne hg] at hpl
    show w g ≠ none
    rw [hw g]
    · exact hA k' g p hhd hpl
    · exact fun hh => hk (hI.queue_unique (by simp [hl, List.mem_of_head? hh]) hgk)

/-- If something is handed over whenever the turn is, nobody sleeps at the front of a queue. -/
theorem Step.awake {e : Option (Event H K)} (hs : Step s e s') (hI : Inv s Q) (hA : Awake s Q)
    (hgrant : ∀ h n k, s.place h = .granting k n → s'.place h = .out → s'.word n ≠ none) :
    Awake s' (advance Q e) := by
  cases hs with
  | @join h k b hp => exact hA.join
  | @swap h k hp ht =>
    have hl := hI.swap hp ht
    have key := hA.depart (t := Function.update s.tail k none) (w := s.word) hI hl
      (fun _ _ => rfl) (by simp)
    simpa only [State.move, advance, Event.apply, hl, List.tail_cons] using key
  | @grant h n k v hp =>
    obtain ⟨l, hl, -, -⟩ := hI.granting hp
    have key := hA.depart (t := s.tail) (w := Function.update s.word n v) hI hl
      (fun g hg => Function.update_of_ne (by simpa [eq_comm] using hg) _ _) ?_
    · simpa only [State.move, advance, Event.apply, hl, List.tail_cons] using key
    · have := hgrant h n k hp (by simp [State.move])
      simpa using this
  | @link h p k hp =>
    refine hA.move (h := h) (fun g hg => Function.update_of_ne hg _ _) (fun _ _ => rfl) ?_
    -- who links itself is not the first one
    intro k' p' hhd
    have hfr := hI.front k' h hhd
    simp [Front, hp] at hfr
  | @tidy h hp => exact hA.move (h := h) (fun _ _ => rfl) (fun _ _ => rfl) (by simp [hp])
  | @write h k v hp =>
    exact hA.move (h := h) (fun _ _ => rfl) (fun g hg => Function.update_of_ne hg _ _) (by simp [hp])
  | @own h k v hp =>
    exact hA.move (h := h) (fun _ _ => rfl) (fun g hg => Function.update_of_ne hg _ _) (by simp [hp])
  | @arm h k hp =>
    exact hA.move (h := h) (fun g hg => Function.update_of_ne hg _ _)
      (fun g hg => Function.update_of_ne hg _ _) (by simp [State.move])
  | @armLate h p k hp =>
    exact hA.move (h := h) (fun g hg => Function.update_of_ne hg _ _)
      (fun g hg => Function.update_of_ne hg _ _) (by simp [State.move])
  | @call h k | @clear h k | @wake h p k | @enter h k | @leave h k | @close h k | @fail h k
  | @see h k | @load h n k =>
    exact hA.move (h := h) (fun g hg => Function.update_of_ne hg _ _) (fun _ _ => rfl)
      (by simp [State.move])

end Awake

/-! ### The order of the turns -/

section Runs

variable [DecidableEq K]

/-- The process that has exchanged the tail of queue `k`, if that is the event. -/
def Event.arrived (k : K) : Event H K → Option H
  | .arrive k' h => if k' = k then some h else none
  | _ => none

/-- The process that has taken its turn in queue `k`. -/
def Event.entered (k : K) : Event H K → Option H
  | .enter k' h => if k' = k then some h else none
  | _ => none

/-- The process that has left queue `k`. -/
def Event.departed (k : K) : Event H K → Option H
  | .leave k' h => if k' = k then some h else none
  | _ => none

/-- The processes that have exchanged the tail of queue `k`, in this order. -/
def arrivals (tr : List (Event H K)) (k : K) : List H := tr.filterMap (Event.arrived k)

/-- The processes that have taken their turn in queue `k`, in this order. -/
def entries (tr : List (Event H K)) (k : K) : List H := tr.filterMap (Event.entered k)

/-- The processes that have left queue `k`, in this order. -/
def departures (tr : List (Event H K)) (k : K) : List H := tr.filterMap (Event.departed k)

/-- The process that has its turn in a queue `l`. -/
def State.turn (s : State H K W) (l : List H) : Option H := l.head?.filter fun h => (s.place h).entered

/-- What the events say about a state. -/
structure Shown (tr : List (Event H K)) (s : State H K W) : Prop where
  inv : Inv s (lines tr)
  arrived : ∀ k, arrivals tr k = departures tr k ++ lines tr k
  entered : ∀ k, entries tr k = departures tr k ++ (s.turn (lines tr k)).toList

omit [DecidableEq K] in
theorem turn_congr {s t : State H K W} (ht : t.place = s.place) (l : List H) :
    t.turn l = s.turn l := by
  simp only [State.turn, ht]

variable [DecidableEq H] {s s' : State H K W} {tr : List (Event H K)}

omit [DecidableEq K] in
/-- A process that moves on without entering or leaving is in its turn as before. -/
theorem turn_move {h : H} {x : Place H K} (hx : x.entered = (s.place h).entered) (l : List H) :
    (s.move h x).turn l = s.turn l := by
  have hent : ∀ g, ((s.move h x).place g).entered = (s.place g).entered := by
    intro g
    by_cases hg : g = h
    · subst hg
      simpa [State.move] using hx
    · simp [State.move, Function.update_of_ne hg]
  simp only [State.turn, hent]

/-- A silent step leaves it to everybody to be in their turn. -/
theorem Step.turn_silent (hs : Step s none s') (l : List H) : s'.turn l = s.turn l := by
  cases hs with
  | call hp => exact turn_move (by rw [hp]; rfl) l
  | write hp => exact turn_congr rfl l
  | @arm h k hp =>
    exact (turn_congr (s := s.move h (.entering k true)) rfl l).trans (turn_move (by rw [hp]; rfl) l)
  | @clear h k b hp =>
    exact (turn_congr (s := s.move h (.ready k b)) rfl l).trans (turn_move (by rw [hp]; rfl) l)
  | @armLate h p k hp =>
    exact (turn_congr (s := s.move h (.linking k p true)) rfl l).trans
      (turn_move (by rw [hp]; rfl) l)
  | @link h p k hp =>
    exact (turn_congr (s := s.move h (.linked k p)) rfl l).trans (turn_move (by rw [hp]; rfl) l)
  | wake hp hw => exact turn_move (by rw [hp]; rfl) l
  | own hp => exact turn_congr rfl l
  | leave hp => exact turn_move (by rw [hp]; rfl) l
  | close hp hn => exact turn_move (by rw [hp]; rfl) l
  | fail hp ht => exact turn_move (by rw [hp]; rfl) l
  | see hp hn => exact turn_move (by rw [hp]; rfl) l
  | load hp hn => exact turn_move (by rw [hp]; rfl) l
  | tidy hp => exact turn_congr rfl l

omit [DecidableEq K] in
/-- A process elsewhere, in a new place that is not the turn, does not have the turn. -/
theorem turn_move_of_ne {h : H} {x : Place H K} {l : List H} (hl : h ∉ l) :
    (s.move h x).turn l = s.turn l := by
  unfold State.turn
  cases hhd : l.head? with
  | none => rfl
  | some g =>
    have hg : g ≠ h := by
      rintro rfl
      exact hl (List.mem_of_head? hhd)
    simp [Option.filter, State.move, Function.update_of_ne hg]

omit [DecidableEq K] [DecidableEq H] in
/-- A process that has its turn in queue `k` is the first one there. -/
theorem Inv.turn_eq {Q : K → List H} {h : H} {k : K} (hI : Inv s Q)
    (hq : (s.place h).queue = some k) (he : (s.place h).entered = true) :
    s.turn (Q k) = some h := by
  have hb : ¬ (s.place h).Behind := by
    cases hp : s.place h <;> simp_all [Place.Behind, Place.entered]
  simp [State.turn, hI.head?_eq hq hb, he]

omit [DecidableEq K] in
/-- What a process does in queue `k` does not matter for the turn in another one. -/
theorem Inv.turn_other {Q : K → List H} {h : H} {k k' : K} {x : Place H K} (hI : Inv s Q)
    (hq : (s.place h).queue = some k) (hk : k' ≠ k) :
    (s.move h x).turn (Q k') = s.turn (Q k') := by
  refine turn_move_of_ne fun hmem => hk ?_
  rw [hI.mem_iff, hq] at hmem
  exact (Option.some.inj hmem).symm

/-- A process that joins a queue does not have the turn yet, and whoever has it keeps it. -/
theorem Step.turn_arrive {Q : K → List H} {h : H} {k : K} (hI : Inv s Q)
    (hs : Step s (some (.arrive k h)) s') (k' : K) :
    s'.turn (advance Q (some (.arrive k h)) k') = s.turn (Q k') := by
  cases hs with
  | @join _ _ b hp =>
    have hnot : ∀ k', h ∉ Q k' := by
      intro k' hmem
      rw [hI.mem_iff, hp] at hmem
      cases hmem
    refine (turn_congr (s := s.move h (.behind k b (s.tail k))) rfl _).trans ?_
    by_cases hk : k' = k
    · subst hk
      simp only [advance, Event.apply, Function.update_self]
      cases hQ : Q k' with
      | nil =>
        have ht : s.tail k' = none := by rw [hI.tail_eq, hQ]; rfl
        simp [State.turn, State.move, ht, Place.behind, Place.entered]
      | cons g l =>
        exact turn_move_of_ne (l := g :: l) (x := .behind k' b (s.tail k')) (hQ ▸ hnot k')
    · simp only [advance, Event.apply, Function.update_of_ne hk]
      exact turn_move_of_ne (hnot k')

/-- A process takes its turn when nobody has it. -/
theorem Step.turn_enter {Q : K → List H} {h : H} {k : K} (hI : Inv s Q)
    (hs : Step s (some (.enter k h)) s') :
    s.turn (Q k) = none ∧ s'.turn (Q k) = some h ∧ ∀ k' ≠ k, s'.turn (Q k') = s.turn (Q k') := by
  cases hs with
  | enter hp =>
    have hhd := hI.head?_eq (h := h) (k := k) (by rw [hp]; rfl) (by simp [hp, Place.Behind])
    refine ⟨?_, ?_, fun k' hk => hI.turn_other (by rw [hp]; rfl) hk⟩
    · simp [State.turn, hhd, hp, Place.entered]
    · simp [State.turn, hhd, State.move, Place.entered]

/-- A process that leaves has the turn, and then nobody has it. -/
theorem Step.turn_leave {Q : K → List H} {h : H} {k : K} (hI : Inv s Q)
    (hs : Step s (some (.leave k h)) s') :
    (∃ l, Q k = h :: l) ∧ s.turn (Q k) = some h ∧ s'.turn (Q k).tail = none ∧
      ∀ k' ≠ k, s'.turn (Q k') = s.turn (Q k') := by
  cases hs with
  | swap hp ht =>
    have hq : (s.place h).queue = some k := by rw [hp]; rfl
    have hturn := hI.turn_eq hq (by rw [hp]; rfl)
    have hl := hI.swap hp ht
    refine ⟨⟨_, hl⟩, hturn, ?_, fun k' hk => ?_⟩
    · simp [hl, State.turn]
    · exact (turn_congr (s := s.move h .out) rfl _).trans (hI.turn_other hq hk)
  | @grant _ n _ v hp =>
    have hq : (s.place h).queue = some k := by rw [hp]; rfl
    obtain ⟨l, hl, hn, -⟩ := hI.granting hp
    refine ⟨⟨_, hl⟩, hI.turn_eq hq (by rw [hp]; rfl), ?_, fun k' hk => ?_⟩
    · have hnd := hI.nodup k
      simp only [hl, List.nodup_cons, List.mem_cons, not_or] at hnd
      rw [hl, List.tail_cons]
      refine (turn_congr (s := s.move h .out) rfl _).trans ?_
      rw [turn_move_of_ne (by simpa using hnd.1)]
      simp [State.turn, hn, Place.entered]
    · exact (turn_congr (s := s.move h .out) rfl _).trans (hI.turn_other hq hk)

theorem Step.shown {e : Option (Event H K)} (hs : Step s e s') (hS : Shown tr s) :
    Shown (tr ++ e.toList) s' := by
  have hI := hS.inv
  have hI' : Inv s' (lines (tr ++ e.toList)) := by
    rw [lines_append]
    exact hs.inv hI
  refine ⟨hI', fun k' => ?_, fun k' => ?_⟩
  · have ha := hS.arrived k'
    rw [lines_append]
    unfold arrivals departures at ha ⊢
    rw [List.filterMap_append, List.filterMap_append, ha]
    cases e with
    | none => simp
    | some e =>
      cases e with
      | arrive k h =>
        by_cases hk : k = k'
        · subst hk
          simp [Event.arrived, Event.departed, advance, Event.apply]
        · simp [Event.arrived, Event.departed, advance, Event.apply, hk, Ne.symm hk]
      | enter k h => simp [Event.arrived, Event.departed, advance, Event.apply, List.filterMap_cons]
      | leave k h =>
        obtain ⟨⟨l, hl⟩, -⟩ := hs.turn_leave hI
        by_cases hk : k = k'
        · subst hk
          simp [Event.arrived, Event.departed, advance, Event.apply, hl]
        · simp [Event.arrived, Event.departed, advance, Event.apply, hk, Ne.symm hk]
  · have ha := hS.entered k'
    rw [lines_append]
    unfold entries departures at ha ⊢
    rw [List.filterMap_append, List.filterMap_append, ha]
    cases e with
    | none => simp [hs.turn_silent]
    | some e =>
      cases e with
      | arrive k h =>
        simp [Event.entered, Event.departed, List.filterMap_cons, hs.turn_arrive hI]
      | enter k h =>
        obtain ⟨h0, h1, hne⟩ := hs.turn_enter hI
        by_cases hk : k = k'
        · subst hk
          simp [Event.entered, Event.departed, advance, Event.apply, h0, h1]
        · simp [Event.entered, Event.departed, advance, Event.apply, hk, hne k' (Ne.symm hk)]
      | leave k h =>
        obtain ⟨-, h0, h1, hne⟩ := hs.turn_leave hI
        by_cases hk : k = k'
        · subst hk
          simp [Event.entered, Event.departed, advance, Event.apply, h0, h1]
        · simp [Event.entered, Event.departed, advance, Event.apply, hk, Ne.symm hk,
            hne k' (Ne.symm hk)]

/-- In every run the events say where the processes are. -/
theorem shown_of_run (hr : (system H K W).Run tr s) : Shown tr s := by
  refine hr.invariant (I := Shown) (fun s hs => ?_) fun tr s e s' _ hS hs => Step.shown hs hS
  exact ⟨inv_initial hs, fun k => rfl, fun k => by simp [entries, departures, lines, State.turn]⟩

omit [DecidableEq H] in
/-- First come, first served: the processes take their turns in the order of their arrivals, and
leave in this order. -/
theorem Shown.first_come (hS : Shown tr s) (k : K) :
    departures tr k <+: entries tr k ∧ entries tr k <+: arrivals tr k := by
  rw [hS.entered k, hS.arrived k]
  refine ⟨List.prefix_append _ _, (List.prefix_append_right_inj _).2 ?_⟩
  unfold State.turn
  cases hQ : lines tr k with
  | nil => simp
  | cons h l =>
    simp only [List.head?_cons]
    cases hb : (s.place h).entered <;> simp [Option.filter, hb]

end Runs

end Handover
