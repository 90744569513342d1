import Mathlib.Data.List.Nodup
import Mathlib.Logic.Function.Basic
import Mathlib.Tactic

/-!
# Queues of the MCS kind

Processes wait for their turn in queues, linked from the front to the back.  A process resets its
three fields, exchanges the tail of the queue for itself and so learns its predecessor `p`; it
writes itself into `next p`, allows `p` to leave (`releasable p`) and waits until `p` has granted
the turn to it.  A process that leaves either swaps the tail from itself to null, or waits for the
permission to leave and grants the turn to its `next`.

* `Mcs.Inv`: what links the fields to the list of the processes in a queue;
* `Mcs.Step.inv`: every step keeps it;
* `Mcs.Inv.tail_eq_none_iff`: the tail is null if and only if no process is in the queue.
-/

namespace Mcs

variable {H K : Type}

/-! ### Neighbours in a list -/

/-- `n` comes right after `p` in `l`. -/
def Adj (l : List H) (p n : H) : Prop := ∃ i : ℕ, l[i]? = some p ∧ l[i + 1]? = some n

section Adj

variable {l : List H} {h p n : H}

theorem Adj.left_mem (hpn : Adj l p n) : p ∈ l := by
  obtain ⟨i, hp, -⟩ := hpn
  exact List.mem_of_getElem? hp

theorem Adj.right_mem (hpn : Adj l p n) : n ∈ l := by
  obtain ⟨i, -, hn⟩ := hpn
  exact List.mem_of_getElem? hn

theorem getElem?_inj (hl : l.Nodup) {i j : ℕ} (hi : l[i]? = some h) (hj : l[j]? = some h) : i = j := by
  obtain ⟨hlt, -⟩ := List.getElem?_eq_some_iff.1 hi
  exact (List.getElem?_inj hlt hl).1 (hi.trans hj.symm)

/-- In a list without repetitions the right neighbour is determined. -/
theorem Adj.right_unique (hl : l.Nodup) {n' : H} (hn : Adj l p n) (hn' : Adj l p n') : n = n' := by
  obtain ⟨i, hi, hi'⟩ := hn
  obtain ⟨j, hj, hj'⟩ := hn'
  obtain rfl := getElem?_inj hl hi hj
  exact Option.some.inj (hi'.symm.trans hj')

/-- In a list without repetitions the left neighbour is determined. -/
theorem Adj.left_unique (hl : l.Nodup) {p' : H} (hp : Adj l p n) (hp' : Adj l p' n) : p = p' := by
  obtain ⟨i, hi, hi'⟩ := hp
  obtain ⟨j, hj, hj'⟩ := hp'
  obtain rfl : i = j := by
    have := getElem?_inj hl hi' hj'
    omega
  exact Option.some.inj (hi.symm.trans hj)

theorem Adj.ne (hl : l.Nodup) (hpn : Adj l p n) : p ≠ n := by
  rintro rfl
  obtain ⟨i, hi, hi'⟩ := hpn
  have := getElem?_inj hl hi hi'
  omega

theorem Adj.ne_head? (hl : l.Nodup) (hpn : Adj l p n) : l.head? ≠ some n := by
  obtain ⟨i, -, hn⟩ := hpn
  intro h0
  rw [List.head?_eq_getElem?] at h0
  have := getElem?_inj hl hn h0
  omega

theorem Adj.ne_getLast? (hl : l.Nodup) (hpn : Adj l p n) : l.getLast? ≠ some p := by
  obtain ⟨i, hp, hn⟩ := hpn
  intro hlast
  rw [List.getLast?_eq_getElem?] at hlast
  have := getElem?_inj hl hp hlast
  obtain ⟨hlt, -⟩ := List.getElem?_eq_some_iff.1 hn
  omega

/-- A member is the first one or has a left neighbour. -/
theorem head?_or_adj (hmem : h ∈ l) : l.head? = some h ∨ ∃ p, Adj l p h := by
  obtain ⟨i, hi⟩ := List.mem_iff_getElem?.1 hmem
  cases i with
  | zero =>
    left
    rwa [List.head?_eq_getElem?]
  | succ i =>
    right
    obtain ⟨hlt, -⟩ := List.getElem?_eq_some_iff.1 hi
    exact ⟨l[i], i, List.getElem?_eq_getElem (by omega), hi⟩

theorem Adj.cons (hpn : Adj l p n) : Adj (h :: l) p n := by
  obtain ⟨i, hp, hn⟩ := hpn
  exact ⟨i + 1, by simpa using hp, by simpa using hn⟩

/-- The neighbours in a list that has been lengthened by one. -/
theorem adj_concat (hpn : Adj (l ++ [h]) p n) : Adj l p n ∨ l.getLast? = some p ∧ n = h := by
  obtain ⟨i, hp, hn⟩ := hpn
  obtain ⟨hlt, -⟩ := List.getElem?_eq_some_iff.1 hn
  rw [List.length_append, List.length_singleton] at hlt
  by_cases hi : i + 1 < l.length
  · left
    rw [List.getElem?_append_left (by omega)] at hp hn
    exact ⟨i, hp, hn⟩
  · right
    have hlen : l.length = i + 1 := by omega
    rw [List.getElem?_append_left (by omega)] at hp
    rw [List.getElem?_append_right (by omega), hlen] at hn
    refine ⟨?_, by simpa using hn.symm⟩
    rw [List.getLast?_eq_getElem?, hlen]
    exact hp

end Adj

/-! ### The processes and their steps -/

/-- Where a process is, with the queue it is at work on. -/
inductive Place (H K : Type)
  | out
  /-- on the way to the queue -/
  | entering (k : K)
  /-- `next` is reset -/
  | cleared (k : K)
  /-- `granted` is reset, too -/
  | lowered (k : K)
  /-- all fields are reset, the tail is to be exchanged -/
  | ready (k : K)
  /-- behind `p`, which does not know yet -/
  | linking (k : K) (p : H)
  /-- written into `next p` -/
  | linked (k : K) (p : H)
  /-- `p` has the permission to leave -/
  | waiting (k : K) (p : H)
  /-- at the front of the queue -/
  | head (k : K)
  /-- no successor was seen, the tail is to be swapped -/
  | leaving (k : K)
  /-- there is a successor, its permission is to be awaited -/
  | closing (k : K)
  /-- `next` is to be loaded -/
  | loading (k : K)
  /-- the turn is to be granted to `n` -/
  | granting (k : K) (n : H)

/-- The queue in which a process is: it has exchanged the tail and has not left. -/
def Place.queue : Place H K → Option K
  | .linking k _ | .linked k _ | .waiting k _ | .head k | .leaving k | .closing k | .loading k
  | .granting k _ => some k
  | _ => none

/-- The tails of the queues and the processes with their fields. -/
structure State (H K : Type) where
  tail : K → Option H
  place : H → Place H K
  next : H → Option H
  granted : H → Bool
  releasable : H → Bool

/-- Process `h` is in a new place. -/
def State.move [DecidableEq H] (s : State H K) (h : H) (x : Place H K) : State H K :=
  { s with place := Function.update s.place h x }

/-- The place of a process that has found `t` as the tail. -/
def Place.behind (k : K) : Option H → Place H K
  | none => .head k
  | some p => .linking k p

/-- The steps of the processes. -/
inductive Step [DecidableEq H] [DecidableEq K] (s : State H K) : State H K → Prop
  | enter {h : H} {k : K} : s.place h = .out → Step s (s.move h (.entering k))
  | clear {h : H} {k : K} : s.place h = .entering k →
      Step s { s.move h (.cleared k) with next := Function.update s.next h none }
  | lower {h : H} {k : K} : s.place h = .cleared k →
      Step s { s.move h (.lowered k) with granted := Function.update s.granted h false }
  | prepare {h : H} {k : K} : s.place h = .lowered k →
      Step s { s.move h (.ready k) with releasable := Function.update s.releasable h false }
  | join {h : H} {k : K} : s.place h = .ready k →
      Step s { s.move h (.behind k (s.tail k)) with tail := Function.update s.tail k (some h) }
  | link {h p : H} {k : K} : s.place h = .linking k p →
      Step s { s.move h (.linked k p) with next := Function.update s.next p (some h) }
  | allow {h p : H} {k : K} : s.place h = .linked k p →
      Step s { s.move h (.waiting k p) with releasable := Function.update s.releasable p true }
  | wake {h p : H} {k : K} : s.place h = .waiting k p → s.granted h = true →
      Step s (s.move h (.head k))
  | leave {h : H} {k : K} : s.place h = .head k → Step s (s.move h (.leaving k))
  | close {h : H} {k : K} : s.place h = .head k → s.next h ≠ none → Step s (s.move h (.closing k))
  | swap {h : H} {k : K} : s.place h = .leaving k → s.tail k = some h →
      Step s { s.move h .out with tail := Function.update s.tail k none }
  | fail {h : H} {k : K} : s.place h = .leaving k → s.tail k ≠ some h →
      Step s (s.move h (.closing k))
  | permit {h : H} {k : K} : s.place h = .closing k → s.releasable h = true →
      Step s (s.move h (.loading k))
  | load {h n : H} {k : K} : s.place h = .loading k → s.next h = some n →
      Step s (s.move h (.granting k n))
  | grant {h n : H} {k : K} : s.place h = .granting k n →
      Step s { s.move h .out with granted := Function.update s.granted n true }

/-! ### The invariant -/

/-- What holds of `p` and its right neighbour `n` in the queue `k`. -/
def Link (s : State H K) (k : K) (p n : H) : Prop :=
  s.granted n = false ∧
    (s.place n = .linking k p ∧ s.next p = none ∧ s.releasable p = false ∨
      s.place n = .linked k p ∧ s.next p = some n ∧ s.releasable p = false ∨
      s.place n = .waiting k p ∧ s.next p = some n ∧ s.releasable p = true)

/-- What holds of the first process `h` of the queue `l`. -/
def Front (s : State H K) (l : List H) (h : H) : Prop :=
  match s.place h with
  | .linking _ _ | .linked _ _ => False
  | .waiting _ _ => s.granted h = true
  | .closing _ => l.getLast? ≠ some h
  | .loading _ => s.releasable h = true
  | .granting _ n => s.releasable h = true ∧ s.next h = some n
  | _ => True

/-- The fields that a process has reset before it exchanges the tail. -/
def Reset (s : State H K) (h : H) : Prop :=
  match s.place h with
  | .cleared _ => s.next h = none
  | .lowered _ => s.next h = none ∧ s.granted h = false
  | .ready _ => s.next h = none ∧ s.granted h = false ∧ s.releasable h = false
  | _ => True

/-- The processes in queue `k` are `Q k`, from the front to the back. -/
structure Inv (s : State H K) (Q : K → List H) : Prop where
  mem_iff : ∀ k h, h ∈ Q k ↔ (s.place h).queue = some k
  nodup : ∀ k, (Q k).Nodup
  tail_eq : ∀ k, s.tail k = (Q k).getLast?
  front : ∀ k h, (Q k).head? = some h → Front s (Q k) h
  link : ∀ k p n, Adj (Q k) p n → Link s k p n
  last : ∀ k h, (Q k).getLast? = some h → s.next h = none ∧ s.releasable h = false
  reset : ∀ h, Reset s h

section Inv

variable {s : State H K} {Q : K → List H} {h p n : H} {k : K}

/-- The tail is null if and only if no process is in the queue. -/
theorem Inv.tail_eq_none_iff (hI : Inv s Q) : s.tail k = none ↔ ∀ h, (s.place h).queue ≠ some k := by
  rw [hI.tail_eq, List.getLast?_eq_none_iff, List.eq_nil_iff_forall_not_mem]
  simp only [hI.mem_iff, ne_eq]

/-- A process is in one queue at most. -/
theorem Inv.queue_unique (hI : Inv s Q) {k' : K} (hk : h ∈ Q k) (hk' : h ∈ Q k') : k' = k := by
  rw [hI.mem_iff] at hk hk'
  exact Option.some.inj (hk'.symm.trans hk)

/-- A process behind another one is its right neighbour. -/
theorem Inv.adj_of_linking (hI : Inv s Q) (hp : s.place h = .linking k p) : Adj (Q k) p h := by
  have hmem : h ∈ Q k := (hI.mem_iff k h).2 (by rw [hp]; rfl)
  obtain hhd | ⟨p', hadj⟩ := head?_or_adj hmem
  · have := hI.front k h hhd
    simp [Front, hp] at this
  · have hl := (hI.link k p' h hadj).2
    simp only [hp, Place.linking.injEq, true_and, reduceCtorEq, false_and, or_false] at hl
    rwa [hl.1]

theorem Inv.adj_of_linked (hI : Inv s Q) (hp : s.place h = .linked k p) : Adj (Q k) p h := by
  have hmem : h ∈ Q k := (hI.mem_iff k h).2 (by rw [hp]; rfl)
  obtain hhd | ⟨p', hadj⟩ := head?_or_adj hmem
  · have := hI.front k h hhd
    simp [Front, hp] at this
  · have hl := (hI.link k p' h hadj).2
    simp only [hp, Place.linked.injEq, true_and, reduceCtorEq, false_and, or_false, false_or] at hl
    rwa [hl.1]

/-- A process whose turn it is, or that is past it, is the first one. -/
theorem Inv.head?_eq (hI : Inv s Q) (hq : (s.place h).queue = some k)
    (hp : s.granted h = true ∨ ∀ p, s.place h ≠ .linking k p ∧ s.place h ≠ .linked k p ∧
      s.place h ≠ .waiting k p) : (Q k).head? = some h := by
  obtain hhd | ⟨p', hadj⟩ := head?_or_adj ((hI.mem_iff k h).2 hq)
  · exact hhd
  · obtain ⟨hg, hl⟩ := hI.link k p' h hadj
    rcases hp with hp | hp
    · simp [hp] at hg
    · simp [hp p'] at hl

end Inv

/-! ### The steps keep the invariant -/

section Step

variable [DecidableEq H] {s : State H K} {Q : K → List H} {h p n : H} {k : K}

/-- A process that is in no queue may do to itself what it wants. -/
theorem Inv.outside {x : Place H K} {a : Option H} {b c : Bool} (hI : Inv s Q)
    (hq : (s.place h).queue = none) (hx : x.queue = none)
    (hr : Reset ⟨s.tail, Function.update s.place h x, Function.update s.next h a,
      Function.update s.granted h b, Function.update s.releasable h c⟩ h) :
    Inv ⟨s.tail, Function.update s.place h x, Function.update s.next h a,
      Function.update s.granted h b, Function.update s.releasable h c⟩ Q := by
  have hne : ∀ {k g}, g ∈ Q k → g ≠ h := by
    rintro k g hg rfl
    rw [hI.mem_iff, hq] at hg
    cases hg
  refine ⟨fun k g => ?_, hI.nodup, hI.tail_eq, fun k g hg => ?_, fun k p n hpn => ?_,
    fun k g hg => ?_, fun g => ?_⟩
  · by_cases hg : g = h
    · subst hg
      simp [hI.mem_iff, hq, hx]
    · simp [hI.mem_iff, Function.update_of_ne hg]
  · have hgh := hne (List.mem_of_head? hg)
    simpa only [Front, Function.update_of_ne hgh] using hI.front k g hg
  · have hp := hne hpn.left_mem
    have hn := hne hpn.right_mem
    simpa only [Link, Function.update_of_ne hp, Function.update_of_ne hn] using hI.link k p n hpn
  · have hgh := hne (List.mem_of_getLast? hg)
    simpa only [Function.update_of_ne hgh] using hI.last k g hg
  · by_cases hg : g = h
    · rwa [hg]
    · simpa only [Reset, Function.update_of_ne hg] using hI.reset g

/-- The first process of a queue moves on in it. -/
theorem Inv.front_move {x : Place H K} (hI : Inv s Q) (hhd : (Q k).head? = some h)
    (hx : x.queue = some k) (hf : Front (s.move h x) (Q k) h) : Inv (s.move h x) Q := by
  have hq : (s.place h).queue = some k := (hI.mem_iff k h).1 (List.mem_of_head? hhd)
  refine ⟨fun k' g => ?_, hI.nodup, hI.tail_eq, fun k' g hg => ?_, fun k' p n hpn => ?_,
    hI.last, fun g => ?_⟩
  · by_cases hg : g = h
    · subst hg
      simp [State.move, hI.mem_iff, hq, hx]
    · simp [State.move, hI.mem_iff, Function.update_of_ne hg]
  · by_cases hgh : g = h
    · subst hgh
      rwa [hI.queue_unique (List.mem_of_head? hhd) (List.mem_of_head? hg)]
    · simpa only [Front, State.move, Function.update_of_ne hgh] using hI.front k' g hg
  · have hnh : n ≠ h := by
      rintro rfl
      obtain rfl := hI.queue_unique (List.mem_of_head? hhd) hpn.right_mem
      exact hpn.ne_head? (hI.nodup k') hhd
    simpa only [Link, State.move, Function.update_of_ne hnh] using hI.link k' p n hpn
  · by_cases hg : g = h
    · subst hg
      cases x <;> simp_all [Reset, State.move, Place.queue]
    · simpa only [Reset, State.move, Function.update_of_ne hg] using hI.reset g

/-- A process behind `p` writes into a field of `p`, and nothing but the link between the two
changes. -/
theorem Inv.behind_move {x : Place H K} {a : Option H} {b : Bool} (hI : Inv s Q)
    (hpn : Adj (Q k) p h) (hx : x.queue = some k)
    (hl : Link ⟨s.tail, Function.update s.place h x, Function.update s.next p a, s.granted,
      Function.update s.releasable p b⟩ k p h)
    (ha : ∀ n, s.next p = some n → a = some n) (hb : s.releasable p = true → b = true) :
    Inv ⟨s.tail, Function.update s.place h x, Function.update s.next p a, s.granted,
      Function.update s.releasable p b⟩ Q := by
  have hnd := hI.nodup k
  have hh : h ∈ Q k := hpn.right_mem
  have hp : p ∈ Q k := hpn.left_mem
  have hqh : (s.place h).queue = some k := (hI.mem_iff k h).1 hh
  have hqp : (s.place p).queue = some k := (hI.mem_iff k p).1 hp
  have hph : p ≠ h := hpn.ne hnd
  refine ⟨fun k' g => ?_, hI.nodup, hI.tail_eq, fun k' g hg => ?_, fun k' p' n hpn' => ?_,
    fun k' g hg => ?_, fun g => ?_⟩
  · by_cases hg : g = h
    · subst hg
      simp [hI.mem_iff, hqh, hx]
    · simp [hI.mem_iff, Function.update_of_ne hg]
  · have hgh : g ≠ h := by
      rintro rfl
      obtain rfl := hI.queue_unique hh (List.mem_of_head? hg)
      exact hpn.ne_head? hnd hg
    by_cases hgp : g = p
    · subst hgp
      have hfr := hI.front k' g hg
      unfold Front at hfr ⊢
      simp only [Function.update_of_ne hgh, Function.update_self]
      cases hpl : s.place g <;> simp only [hpl] at hfr ⊢ <;> tauto
    · simpa only [Front, Function.update_of_ne hgh, Function.update_of_ne hgp] using hI.front k' g hg
  · by_cases hp' : p' = p
    · subst hp'
      obtain rfl := hI.queue_unique hp hpn'.left_mem
      obtain rfl := hpn.right_unique hnd hpn'
      exact hl
    · have hn : n ≠ h := by
        rintro rfl
        obtain rfl := hI.queue_unique hh hpn'.right_mem
        exact hp' (hpn'.left_unique hnd hpn)
      simpa only [Link, Function.update_of_ne hp', Function.update_of_ne hn] using hI.link k' p' n hpn'
  · have hgp : g ≠ p := by
      rintro rfl
      obtain rfl := hI.queue_unique hp (List.mem_of_getLast? hg)
      exact hpn.ne_getLast? hnd hg
    simpa only [Function.update_of_ne hgp] using hI.last k' g hg
  · by_cases hgh : g = h
    · subst hgh
      cases x <;> simp_all [Reset, Place.queue]
    · by_cases hgp : g = p
      · subst hgp
        unfold Reset
        simp only [Function.update_of_ne hgh]
        cases hpl : s.place g <;> simp_all [Place.queue]
      · simpa only [Reset, Function.update_of_ne hgh, Function.update_of_ne hgp] using hI.reset g

variable [DecidableEq K]

/-- A process that exchanges the tail is the last one of the queue. -/
theorem Inv.join (hI : Inv s Q) (hp : s.place h = .ready k) :
    Inv { s.move h (.behind k (s.tail k)) with tail := Function.update s.tail k (some h) }
      (Function.update Q k (Q k ++ [h])) := by
  have hnot : ∀ k', h ∉ Q k' := by
    intro k' hmem
    rw [hI.mem_iff, hp] at hmem
    cases hmem
  have hne : ∀ {k' g}, g ∈ Q k' → g ≠ h := by
    rintro k' g hg rfl
    exact hnot k' hg
  obtain ⟨hnext, hgranted, hrel⟩ : s.next h = none ∧ s.granted h = false ∧ s.releasable h = false := by
    simpa only [Reset, hp] using hI.reset h
  have hq : (Place.behind k (s.tail k)).queue = some k := by
    cases s.tail k <;> rfl
  -- the links between the old processes stay
  have hold : ∀ k' p n, Adj (Q k') p n → Link { s.move h (.behind k (s.tail k)) with
      tail := Function.update s.tail k (some h) } k' p n := by
    intro k' p n hpn
    simpa only [Link, State.move, Function.update_of_ne (hne hpn.right_mem)] using hI.link k' p n hpn
  refine ⟨fun k' g => ?_, fun k' => ?_, fun k' => ?_, fun k' g hg => ?_, fun k' p n hpn => ?_,
    fun k' g hg => ?_, fun g => ?_⟩
  · simp only [State.move]
    by_cases hg : g = h
    · subst hg
      simp only [Function.update_self, hq, Option.some.injEq]
      by_cases hk : k' = k
      · subst hk
        simp
      · simp [Function.update_of_ne hk, hnot k', Ne.symm hk]
    · rw [Function.update_of_ne hg, ← hI.mem_iff]
      by_cases hk : k' = k
      · subst hk
        simp [hg]
      · rw [Function.update_of_ne hk]
  · by_cases hk : k' = k
    · subst hk
      rw [Function.update_self]
      simpa using (hI.nodup k').concat (hnot k')
    · rw [Function.update_of_ne hk]
      exact hI.nodup k'
  · by_cases hk : k' = k
    · subst hk
      simp
    · simp only [Function.update_of_ne hk]
      exact hI.tail_eq k'
  · by_cases hk : k' = k
    · subst hk
      rw [Function.update_self] at hg ⊢
      rw [List.head?_append] at hg
      cases hhd : (Q k').head? with
      | none =>
        -- the queue was empty, the process has found a null tail
        have hnil : Q k' = [] := List.head?_eq_none_iff.1 hhd
        obtain rfl : h = g := by simpa [hhd] using hg
        simp [Front, State.move, hI.tail_eq, hnil, Place.behind]
      | some g' =>
        obtain rfl : g' = g := by simpa [hhd] using hg
        have hgh := hne (List.mem_of_head? hhd)
        have hfr := hI.front k' g' hhd
        unfold Front at hfr ⊢
        simp only [State.move, Function.update_of_ne hgh]
        cases hpl : s.place g' <;> simp only [hpl] at hfr ⊢ <;>
          first | exact hfr | simpa using Ne.symm hgh
    · rw [Function.update_of_ne hk] at hg ⊢
      have hgh := hne (List.mem_of_head? hg)
      simpa only [Front, State.move, Function.update_of_ne hgh] using hI.front k' g hg
  · by_cases hk : k' = k
    · subst hk
      rw [Function.update_self] at hpn
      obtain hpn | ⟨hlast, rfl⟩ := adj_concat hpn
      · exact hold k' p n hpn
      · obtain ⟨hnp, hrp⟩ := hI.last k' p hlast
        refine ⟨hgranted, .inl ⟨?_, hnp, hrp⟩⟩
        simp [State.move, hI.tail_eq, hlast, Place.behind]
    · rw [Function.update_of_ne hk] at hpn
      exact hold k' p n hpn
  · by_cases hk : k' = k
    · subst hk
      obtain rfl : h = g := by simpa using hg
      exact ⟨hnext, hrel⟩
    · rw [Function.update_of_ne hk] at hg
      exact hI.last k' g hg
  · by_cases hg : g = h
    · subst hg
      cases s.tail k <;> simp [Reset, State.move, Place.behind]
    · simpa only [Reset, State.move, Function.update_of_ne hg] using hI.reset g

/-- The first process leaves the queue, and the next one, if there is one, has the turn. -/
theorem Inv.depart {l : List H} {t : K → Option H} {b : H → Bool} (hI : Inv s Q) (hl : Q k = h :: l)
    (ht : ∀ k', t k' = if k' = k then l.getLast? else s.tail k')
    (hb : ∀ g, b g = if l.head? = some g then true else s.granted g)
    (hw : ∀ n, l.head? = some n → s.place n = .waiting k h) :
    Inv { s.move h .out with tail := t, granted := b } (Function.update Q k l) := by
  have hnd := hI.nodup k
  rw [hl, List.nodup_cons] at hnd
  have hsub : ∀ {k' g}, g ∈ Function.update Q k l k' → g ∈ Q k' := by
    intro k' g hg
    by_cases hk : k' = k
    · subst hk
      rw [Function.update_self] at hg
      rw [hl]
      exact List.mem_cons_of_mem h hg
    · rwa [Function.update_of_ne hk] at hg
  have hne : ∀ {k' g}, g ∈ Function.update Q k l k' → g ≠ h := by
    rintro k' g hg rfl
    obtain rfl := hI.queue_unique (h := g) (k := k) (by simp [hl]) (hsub hg)
    rw [Function.update_self] at hg
    exact hnd.1 hg
  -- nothing is granted in another queue
  have hold : ∀ {k' g}, k' ≠ k → g ∈ Q k' → b g = s.granted g := by
    intro k' g hk hg
    rw [hb, if_neg]
    intro hhd
    apply hk
    exact hI.queue_unique (h := g) (by rw [hl]; exact List.mem_cons_of_mem h (List.mem_of_head? hhd)) hg
  refine ⟨fun k' g => ?_, fun k' => ?_, fun k' => ?_, fun k' g hg => ?_, fun k' p n hpn => ?_,
    fun k' g hg => ?_, fun g => ?_⟩
  · by_cases hg : g = h
    · subst hg
      simpa [State.move, Place.queue] using fun hmem => hne hmem rfl
    · simp only [State.move, Function.update_of_ne hg]
      rw [← hI.mem_iff]
      by_cases hk : k' = k
      · subst hk
        rw [Function.update_self, hl, List.mem_cons, or_iff_right hg]
      · rw [Function.update_of_ne hk]
  · by_cases hk : k' = k
    · subst hk
      rw [Function.update_self]
      exact hnd.2
    · rw [Function.update_of_ne hk]
      exact hI.nodup k'
  · show t k' = _
    rw [ht]
    by_cases hk : k' = k
    · subst hk
      simp
    · simp [hk, hI.tail_eq]
  · have hgh := hne (List.mem_of_head? hg)
    by_cases hk : k' = k
    · subst hk
      rw [Function.update_self] at hg
      simp [Front, State.move, Function.update_of_ne hgh, hw g hg, hb, hg]
    · have hbg : b g = s.granted g := hold hk (List.mem_of_head? (by rwa [Function.update_of_ne hk] at hg))
      rw [Function.update_of_ne hk] at hg ⊢
      simpa only [Front, State.move, Function.update_of_ne hgh, hbg] using hI.front k' g hg
  · have hnh := hne hpn.right_mem
    by_cases hk : k' = k
    · subst hk
      rw [Function.update_self] at hpn
      have hbn : b n = s.granted n := by
        rw [hb, if_neg (hpn.ne_head? hnd.2)]
      have hlink := hI.link k' p n (hl ▸ hpn.cons)
      simpa only [Link, State.move, Function.update_of_ne hnh, hbn] using hlink
    · rw [Function.update_of_ne hk] at hpn
      have hbn : b n = s.granted n := hold hk hpn.right_mem
      simpa only [Link, State.move, Function.update_of_ne hnh, hbn] using hI.link k' p n hpn
  · apply hI.last k' g
    by_cases hk : k' = k
    · subst hk
      rw [Function.update_self] at hg
      rw [hl, List.getLast?_cons, hg]
      rfl
    · rwa [Function.update_of_ne hk] at hg
  · by_cases hg : g = h
    · subst hg
      simp [Reset, State.move]
    · by_cases hhd : l.head? = some g
      · simp [Reset, State.move, Function.update_of_ne hg, hw g hhd]
      · simpa only [Reset, State.move, Function.update_of_ne hg, hb, if_neg hhd] using hI.reset g

/-- Every step of a process keeps the invariant, with some new queues. -/
theorem Step.inv {s' : State H K} (hs : Step s s') (hI : Inv s Q) : ∃ Q', Inv s' Q' := by
  cases hs with
  | @enter h k hp =>
    refine ⟨Q, ?_⟩
    simpa [State.move] using hI.outside (h := h) (x := .entering k) (a := s.next h)
      (b := s.granted h) (c := s.releasable h) (by rw [hp]; rfl) rfl (by simp [Reset])
  | @clear h k hp =>
    refine ⟨Q, ?_⟩
    simpa [State.move] using hI.outside (h := h) (x := .cleared k) (a := none)
      (b := s.granted h) (c := s.releasable h) (by rw [hp]; rfl) rfl (by simp [Reset])
  | @lower h k hp =>
    refine ⟨Q, ?_⟩
    have hr : s.next h = none := by simpa only [Reset, hp] using hI.reset h
    simpa [State.move] using hI.outside (h := h) (x := .lowered k) (a := s.next h)
      (b := false) (c := s.releasable h) (by rw [hp]; rfl) rfl (by simp [Reset, hr])
  | @prepare h k hp =>
    refine ⟨Q, ?_⟩
    have hr : s.next h = none ∧ s.granted h = false := by simpa only [Reset, hp] using hI.reset h
    simpa [State.move] using hI.outside (h := h) (x := .ready k) (a := s.next h)
      (b := s.granted h) (c := false) (by rw [hp]; rfl) rfl (by simp [Reset, hr])
  | @join h k hp => exact ⟨_, hI.join hp⟩
  | @link h p k hp =>
    refine ⟨Q, ?_⟩
    have hadj := hI.adj_of_linking hp
    obtain ⟨hg, hl⟩ := hI.link k p h hadj
    simp only [hp, true_and, reduceCtorEq, false_and, or_false] at hl
    simpa [State.move] using hI.behind_move (x := .linked k p) (a := some h) (b := s.releasable p)
      hadj rfl (by simp [Link, hg, hl]) (by simp [hl]) id
  | @allow h p k hp =>
    refine ⟨Q, ?_⟩
    have hadj := hI.adj_of_linked hp
    obtain ⟨hg, hl⟩ := hI.link k p h hadj
    simp only [hp, true_and, reduceCtorEq, false_and, or_false, false_or] at hl
    simpa [State.move] using hI.behind_move (x := .waiting k p) (a := s.next p) (b := true)
      hadj rfl (by simp [Link, hg, hl]) (fun _ h => h) (fun _ => rfl)
  | @wake h p k hp hg =>
    exact ⟨Q, hI.front_move (hI.head?_eq (by rw [hp]; rfl) (.inl hg)) rfl (by simp [Front, State.move])⟩
  | @leave h k hp =>
    have hhd := hI.head?_eq (h := h) (k := k) (by rw [hp]; rfl) (.inr (by simp [hp]))
    exact ⟨Q, hI.front_move hhd rfl (by simp [Front, State.move])⟩
  | @close h k hp hn =>
    have hhd := hI.head?_eq (h := h) (k := k) (by rw [hp]; rfl) (.inr (by simp [hp]))
    refine ⟨Q, hI.front_move hhd rfl ?_⟩
    simpa [Front, State.move] using fun hlast => hn (hI.last k h hlast).1
  | @swap h k hp ht =>
    have hhd := hI.head?_eq (h := h) (k := k) (by rw [hp]; rfl) (.inr (by simp [hp]))
    obtain ⟨l, hl⟩ := List.head?_eq_some_iff.1 hhd
    have hnil : l = [] := by
      cases l with
      | nil => rfl
      | cons n l =>
        have hadj : Adj (Q k) h n := ⟨0, by simp [hl], by simp [hl]⟩
        exact absurd ((hI.tail_eq k).symm.trans ht) (hadj.ne_getLast? (hI.nodup k))
    subst hnil
    refine ⟨_, hI.depart hl (fun k' => ?_) (b := s.granted) (by simp) (by simp)⟩
    simp [Function.update_apply]
  | @fail h k hp ht =>
    have hhd := hI.head?_eq (h := h) (k := k) (by rw [hp]; rfl) (.inr (by simp [hp]))
    refine ⟨Q, hI.front_move hhd rfl ?_⟩
    rw [hI.tail_eq] at ht
    simpa [Front, State.move] using ht
  | @permit h k hp hr =>
    have hhd := hI.head?_eq (h := h) (k := k) (by rw [hp]; rfl) (.inr (by simp [hp]))
    exact ⟨Q, hI.front_move hhd rfl (by simpa [Front, State.move] using hr)⟩
  | @load h n k hp hn =>
    have hhd := hI.head?_eq (h := h) (k := k) (by rw [hp]; rfl) (.inr (by simp [hp]))
    have hr : s.releasable h = true := by
      simpa only [Front, hp] using hI.front k h hhd
    exact ⟨Q, hI.front_move hhd rfl (by simpa [Front, State.move] using ⟨hr, hn⟩)⟩
  | @grant h n k hp =>
    have hhd := hI.head?_eq (h := h) (k := k) (by rw [hp]; rfl) (.inr (by simp [hp]))
    obtain ⟨hr, hn⟩ : s.releasable h = true ∧ s.next h = some n := by
      simpa only [Front, hp] using hI.front k h hhd
    obtain ⟨l, hl⟩ := List.head?_eq_some_iff.1 hhd
    cases l with
    | nil =>
      have := (hI.last k h (by simp [hl])).2
      simp [hr] at this
    | cons n' l =>
      obtain ⟨-, hlink⟩ := hI.link k h n' ⟨0, by simp [hl], by simp [hl]⟩
      simp only [hr, hn, Bool.true_eq_false, and_false, reduceCtorEq, false_or, Option.some.injEq,
        and_true] at hlink
      obtain ⟨hw, rfl⟩ := hlink
      refine ⟨_, hI.depart hl (t := s.tail) (fun k' => ?_) (fun g => ?_) (by simpa using hw)⟩
      · split_ifs with hk
        · subst hk
          rw [hI.tail_eq, hl, List.getLast?_cons_cons]
        · rfl
      · simp [Function.update_apply, eq_comm]

end Step

end Mcs
