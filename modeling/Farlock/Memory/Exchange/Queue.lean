import Mathlib
import Farlock.Memory.Exchange

/-!
# The queue behind the tail word of `Exchange` (`include/locks/farlock.h`)

`LockRemote` installs the descriptor of its handler with `Exchange` and then waits until the handler
whose descriptor it has received hands over; only then `UnlockRemote` swaps the tail back to null or
hands over in its turn.  Such handlers are patient, and those that have installed and not left form
one chain from the tail.  Nothing in `Exchange` or `CompareAndSwap` enforces the patience: a handler
that leaves early cuts the chain.

* `patient`: the steps of patient handlers;
* `Queue`: the chain;
* `exchange_makes_a_queue`: what every run of the handlers satisfies, and the chain of the patient
  ones.
-/

namespace Farlock

namespace Memory

namespace Exchange

variable {H : Type} [DecidableEq H]

/-- `h` has received the value of a handler that has not handed over yet. -/
def Waits (s : State H) (h : H) : Prop :=
  ∃ g prev, s.phase g = .holding prev ∧ s.receiver g = some h

/-- The handlers when nobody leaves before the handler whose value it has received. -/
def patient (d : H → UInt64) : Lts (State H) (Event H) where
  init := (system d).init
  step s e s' := (system d).step s e s' ∧
    ∀ h, (e = some (.cleared h) ∨ ∃ g, e = some (.handed h g)) → ¬ Waits s h

/-- The handlers that have installed their values and have not left, from the first one to the one
whose value is in the tail: each of them has received the value of the one before. -/
structure Queue (d : H → UInt64) (s : State H) (l : List H) : Prop where
  nodup : l.Nodup
  mem : ∀ h, h ∈ l ↔ ∃ prev, s.phase h = .holding prev
  linked : l.IsChain fun g h => s.phase h = .holding (d g) ∧ s.receiver g = some h
  tail : s.word = (l.getLast?.map d).getD 0
  first : ∀ h ∈ l.head?, ¬ Waits s h

section Run

variable {d : H → UInt64} {tr : List (Event H)} {s s' : State H} {e : Event H} {h g : H}
  {l : List H} {prev : UInt64}

theorem patient_run (hr : (patient d).Run tr s) : (system d).Run tr s := by
  induction hr with
  | start h0 => exact .start h0
  | next _ hs ih => exact ih.next hs.1

/-- A holder whose value is in the tail has no receiver. -/
theorem Inv.receiver_eq_none (hI : Inv d tr s) (hp : s.phase h = .holding prev) :
    s.receiver h = none ↔ s.word = d h := by
  obtain ⟨-, -, ⟨hnone, hw, -⟩ | ⟨hsome, hw, -⟩⟩ := hI.held h prev hp
  · exact iff_of_true hnone hw
  · exact iff_of_false hsome hw

omit [DecidableEq H] in
/-- Nobody is in front of a handler that waits for nobody. -/
theorem Queue.eq_cons (hq : Queue d s l) (hp : s.phase h = .holding prev) (hfree : ¬ Waits s h) :
    ∃ l', l = h :: l' := by
  obtain ⟨l₁, l₂, rfl⟩ := List.append_of_mem ((hq.mem h).2 ⟨prev, hp⟩)
  rcases List.eq_nil_or_concat' l₁ with rfl | ⟨l₀, g, rfl⟩
  · exact ⟨l₂, rfl⟩
  · exfalso
    have hlink := hq.linked
    simp only [List.append_assoc, List.singleton_append] at hlink
    have hg : s.receiver g = some h := (List.isChain_append_cons_cons.1 hlink).2.1.2
    obtain ⟨v, hv⟩ := (hq.mem g).1 (by simp)
    exact hfree ⟨g, v, hv, hg⟩

/-- The receiver of a value is the next handler of the queue. -/
theorem Queue.next (hq : Queue d s l) (hI : Inv d tr s) (hp : s.phase g = .holding prev)
    (hg : s.receiver g = some h) : ∃ l₁ l₂, l = l₁ ++ g :: h :: l₂ := by
  obtain ⟨l₁, l₂, rfl⟩ := List.append_of_mem ((hq.mem g).2 ⟨prev, hp⟩)
  cases l₂ with
  | nil =>
    -- the last one has its value in the tail
    have hw : s.word = d g := by simpa using hq.tail
    rw [(hI.receiver_eq_none hp).2 hw] at hg
    cases hg
  | cons x l₂ =>
    have hx : s.receiver g = some x := (List.isChain_append_cons_cons.1 hq.linked).2.1.2
    obtain rfl : h = x := Option.some.inj (hg.symm.trans hx)
    exact ⟨l₁, l₂, rfl⟩

omit [DecidableEq H] in
/-- The queue stays as it is if the same handlers hold. -/
theorem Queue.quiet (hq : Queue d s l) (hw : s'.word = s.word) (hrec : s'.receiver = s.receiver)
    (hphase : ∀ g v, s'.phase g = .holding v ↔ s.phase g = .holding v) : Queue d s' l where
  nodup := hq.nodup
  mem g := by simp only [hq.mem, hphase]
  linked := by simpa only [hphase, hrec] using hq.linked
  tail := hw.trans hq.tail
  first g hg := by simpa only [Waits, hphase, hrec] using hq.first g hg

/-- A handler that installs its value comes to the end of the queue. -/
theorem Queue.install (hq : Queue d s l) (hI : Inv d tr s) (hp : s.phase h = .exchanging s.word) :
    Queue d { word := d h
              phase := Function.update s.phase h (.holding s.word)
              receiver := fun g =>
                if g = h then none else if d g = s.word then some h else s.receiver g }
      (l ++ [h]) := by
  have hnot : h ∉ l := by
    intro hmem
    obtain ⟨v, hv⟩ := (hq.mem h).1 hmem
    rw [hp] at hv
    cases hv
  refine ⟨?_, fun g => ?_, ?_, by simp, fun x hx => ?_⟩
  · exact List.nodup_append.2 ⟨hq.nodup, List.nodup_singleton h, by
      rintro a ha b hb rfl
      exact hnot (List.mem_singleton.1 hb ▸ ha)⟩
  · by_cases hgh : g = h
    · subst hgh
      simp
    · simp [hgh, hq.mem]
  · refine List.IsChain.append ?_ (List.isChain_singleton h) fun g hg y hy => ?_
    · refine hq.linked.imp_of_mem_imp fun a b ha hb hab => ?_
      have hah : a ≠ h := fun e => hnot (e ▸ ha)
      have hbh : b ≠ h := fun e => hnot (e ▸ hb)
      obtain ⟨v, hv⟩ := (hq.mem a).1 ha
      -- a handler with a receiver has not its value in the tail
      have hw : d a ≠ s.word := fun e => by
        rw [(hI.receiver_eq_none hv).2 e.symm] at hab
        cases hab.2
      exact ⟨by simp [hbh, hab.1], by simp [hah, hw, hab.2]⟩
    · obtain rfl : h = y := by simpa using hy
      have hw : s.word = d g := by rw [hq.tail, hg]; rfl
      have hgh : g ≠ h := fun e => hnot (e ▸ List.mem_of_getLast? hg)
      exact ⟨by simp [hw], by simp [hgh, hw]⟩
  · rintro ⟨g, v, hv, hg⟩
    have hgh : g ≠ h := by
      rintro rfl
      simp at hg
    simp only [Function.update_of_ne hgh, if_neg hgh] at hv hg
    have hmem : g ∈ l := (hq.mem g).2 ⟨v, hv⟩
    cases l with
    | nil => cases hmem
    | cons y l =>
      obtain rfl : y = x := by simpa using hx
      split_ifs at hg with hw
      · exact hnot (by simp [Option.some.inj hg])
      · exact hq.first y rfl ⟨g, v, hv, hg⟩

/-- The handler that swaps its value back to null was the only one. -/
theorem Queue.cleared (hq : Queue d s l) (hd : Function.Injective d) (hp : s.phase h = .holding prev)
    (hw : s.word = d h) (hfree : ¬ Waits s h) :
    Queue d { s with word := 0, phase := Function.update s.phase h .idle } [] := by
  obtain ⟨l', rfl⟩ := hq.eq_cons hp hfree
  have hlast : (h :: l').getLast (by simp) = h := by
    have := hq.tail
    rw [List.getLast?_eq_getLast_of_ne_nil (by simp), hw] at this
    exact (hd this).symm
  obtain rfl : l' = [] := by
    cases l' with
    | nil => rfl
    | cons y l' =>
      have hmem : h ∈ y :: l' := by
        have := List.getLast_mem (List.cons_ne_nil y l')
        rwa [← List.getLast_cons (List.cons_ne_nil y l'), hlast] at this
      exact absurd hmem (List.nodup_cons.1 hq.nodup).1
  refine ⟨List.nodup_nil, fun g => ?_, List.isChain_nil, rfl, by simp⟩
  by_cases hgh : g = h
  · subst hgh
    simp
  · have hnot : ¬ ∃ v, s.phase g = .holding v := fun hv => hgh (by simpa using (hq.mem g).2 hv)
    simpa [hgh] using hnot

/-- A handler hands over to the next one of the queue, which is then the first. -/
theorem Queue.handed (hq : Queue d s l) (hI : Inv d tr s) (hp : s.phase h = .holding prev)
    (hg : s.receiver h = some g) (hfree : ¬ Waits s h) :
    ∃ l', Queue d { s with phase := Function.update s.phase h .idle } l' := by
  obtain ⟨l', rfl⟩ := hq.eq_cons hp hfree
  obtain ⟨l₁, l₂, heq⟩ := hq.next hI hp hg
  obtain ⟨hnot, hnodup⟩ := List.nodup_cons.1 hq.nodup
  obtain ⟨rfl, rfl⟩ : l₁ = [] ∧ l' = g :: l₂ := by
    cases l₁ with
    | nil => exact ⟨rfl, (List.cons.inj heq).2⟩
    | cons x l₁ =>
      exact absurd (by rw [(List.cons.inj heq).2]; simp) hnot
  refine ⟨g :: l₂, hnodup, fun x => ?_, ?_, ?_, fun x hx => ?_⟩
  · by_cases hxh : x = h
    · subst hxh
      simp [hnot]
    · have := hq.mem x
      rw [List.mem_cons, or_iff_right hxh] at this
      simp only [Function.update_of_ne hxh, this]
  · refine (List.isChain_cons_cons.1 hq.linked).2.imp_of_mem_imp fun a b _ hb hab => ?_
    have hbh : b ≠ h := fun e => hnot (e ▸ hb)
    exact ⟨by simp [hbh, hab.1], hab.2⟩
  · exact hq.tail.trans (by rw [List.getLast?_cons_cons])
  · obtain rfl : g = x := by simpa using hx
    rintro ⟨y, v, hv, hy⟩
    have hyh : y ≠ h := by
      rintro rfl
      simp at hv
    simp only [Function.update_of_ne hyh] at hv
    -- the handler before `g` in the queue is `h`
    obtain ⟨l₃, l₄, heq'⟩ := hq.next hI hv hy
    cases l₃ with
    | nil => exact hyh (List.cons.inj heq').1.symm
    | cons z l₃ =>
      have htail : g :: l₂ = l₃ ++ y :: g :: l₄ := (List.cons.inj heq').2
      rw [htail] at hnodup
      cases l₃ with
      | nil =>
        obtain rfl : g = y := (List.cons.inj htail).1
        simp at hnodup
      | cons z l₃ =>
        obtain rfl : g = z := (List.cons.inj htail).1
        simp at hnodup

/-- Every step of a patient handler keeps the queue. -/
theorem Queue.step (hq : Queue d s l) (hI : Inv d tr s) (hd : Function.Injective d)
    {e : Option (Event H)} (hs : (patient d).step s e s') : ∃ l', Queue d s' l' := by
  obtain ⟨⟨h, a, e', hs, rfl⟩, hfree⟩ := hs
  obtain ⟨hint, rfl, hp, rfl⟩ | ⟨v, rfl, hp, rfl, rfl⟩ | ⟨v, rfl, hp, -, rfl⟩ | ⟨v, rfl, hp, hw, rfl⟩ |
    ⟨v, rfl, hp, -, rfl⟩ | ⟨v, g, rfl, hp, hg, rfl⟩ := step_cases hs
  · exact ⟨l, hq.quiet rfl rfl fun g v => by
      by_cases hgh : g = h
      · subst hgh
        simp [hp]
      · simp [hgh]⟩
  · exact ⟨_, hq.install hI hp⟩
  · exact ⟨l, hq.quiet rfl rfl fun g v => by
      by_cases hgh : g = h
      · subst hgh
        simp [hp]
      · simp [hgh]⟩
  · exact ⟨_, hq.cleared hd hp hw (hfree h (.inl rfl))⟩
  · exact ⟨l, hq⟩
  · exact hq.handed hI hp hg (hfree h (.inr ⟨g, rfl⟩))

/-- Patient handlers always form a queue. -/
theorem exists_queue (hd : Function.Injective d) (h0 : ∀ h, d h ≠ 0) (hr : (patient d).Run tr s) :
    ∃ l, Queue d s l := by
  refine hr.invariant (I := fun _ s => ∃ l, Queue d s l) ?_ ?_
  · rintro s ⟨hw, hidle⟩
    exact ⟨[], List.nodup_nil, fun h => by simp [hidle h], List.isChain_nil, hw, by simp⟩
  · rintro tr s e s' hr ⟨l, hq⟩ hs
    exact hq.step (Inv.run hd h0 (patient_run hr)) hd hs

end Run

/-- Every run of handlers with different non-zero values: a call of `Exchange` changes the tail word
once, from the value it returns to the handler's own, and a failed request does not change it; no
installation of a value is returned twice; the swap to null succeeds if and only if nobody has
received the value since it was installed; the values installed since the tail was last null form
one chain, each holder's value being in the tail or received by one other handler; and if the
handlers are patient, all of them that have installed and not left form one queue from the tail. -/
theorem exchange_makes_a_queue {d : H → UInt64} {tr : List (Event H)} {s : State H}
    (hd : Function.Injective d) (h0 : ∀ h, d h ≠ 0) (hr : (system d).Run tr s) :
    (∀ h, CallOk tr h (s.phase h)) ∧
      (∀ e s', (system d).step s (some e) s' → StepOk d tr s s' e) ∧
      Chain d 0 (installs (epoch tr)) s.word ∧
      (∀ h prev, s.phase h = .holding prev → ∃ l, sinceLast (Event.isInstall h) tr = some l ∧
        (s.word = d h ∧ l.countP (Event.returns (d h)) = 0 ∨
          s.word ≠ d h ∧ l.countP (Event.returns (d h)) = 1)) ∧
      ((patient d).Run tr s → ∃ l, Queue d s l) := by
  have hI := Inv.run hd h0 hr
  refine ⟨hI.calls, fun e s' hs => ?_, hI.chain, fun h prev hp => ?_, exists_queue hd h0⟩
  · obtain ⟨h, a, e', hs, heq⟩ := hs
    cases heq
    exact hI.stepOk hs
  · obtain ⟨l, hl, ⟨-, hw, hcount⟩ | ⟨-, hw, hcount⟩⟩ := hI.held h prev hp
    · exact ⟨l, hl, .inl ⟨hw, hcount⟩⟩
    · exact ⟨l, hl, .inr ⟨hw, hcount⟩⟩

/-- The value of each of two handlers. -/
def twoValues (h : Bool) : UInt64 := if h then 1 else 2

/-- The first handler hands over to the second one and comes back behind it. -/
def twoTurns : List (Event Bool) :=
  [.call true 0, .install true 0, .call false 0, .failed false, .install false 1, .handed true false,
    .call true 0, .failed true, .install true 2]

/-- The queue of two patient handlers after `twoTurns`. -/
theorem exchange_makes_a_queue_two : ∃ s, (patient twoValues).Run twoTurns s ∧ s.word = 1 ∧
    (∀ h, CallOk twoTurns h (s.phase h)) ∧ Chain twoValues 0 [(true, 0), (false, 1), (true, 2)] s.word ∧
    Queue twoValues s [false, true] := by
  have h0 : (patient twoValues).Run [] ⟨0, fun _ => .idle, fun _ => none⟩ := .start ⟨rfl, fun _ => rfl⟩
  have h1 := h0.next ⟨⟨true, .call 0, _, rfl, rfl⟩, by simp⟩
  have h2 := h1.next ⟨⟨true, .request, _, rfl, rfl⟩, by simp⟩
  have h3 := h2.next ⟨⟨false, .call 0, _, rfl, rfl⟩, by simp⟩
  have h4 := h3.next ⟨⟨false, .request, _, rfl, rfl⟩, by simp⟩
  have h5 := h4.next ⟨⟨false, .request, _, rfl, rfl⟩, by simp⟩
  have h6 := h5.next ⟨⟨true, .handOver false, _, rfl, rfl⟩, by simp [Waits]⟩
  have h7 := h6.next ⟨⟨true, .call 0, _, rfl, rfl⟩, by simp⟩
  have h8 := h7.next ⟨⟨true, .request, _, rfl, rfl⟩, by simp⟩
  have h9 := h8.next ⟨⟨true, .request, _, rfl, rfl⟩, by simp⟩
  obtain ⟨hcalls, -, hchain, -, hqueue⟩ :=
    exchange_makes_a_queue (by decide) (by decide) (patient_run h9)
  obtain ⟨l, hq⟩ := hqueue h9
  -- the second handler is in front of the first one
  obtain ⟨l₁, l₂, rfl⟩ := hq.next (g := false) (h := true) (Inv.run (by decide) (by decide)
    (patient_run h9)) rfl rfl
  have hnodup := hq.nodup
  obtain ⟨rfl, rfl⟩ : l₁ = [] ∧ l₂ = [] := by
    constructor
    · cases l₁ with
      | nil => rfl
      | cons x l₁ => cases x <;> simp at hnodup
    · cases l₂ with
      | nil => rfl
      | cons x l₂ => cases x <;> simp [List.nodup_append] at hnodup
  exact ⟨_, h9, rfl, hcalls, hchain, hq⟩

/-- The second handler leaves before the first one hands over to it, and comes back: both have
received null, and the first one's value is no longer in the tail. -/
def cut : List (Event Bool) :=
  [.call true 0, .install true 0, .call false 1, .install false 1, .cleared false, .call false 0,
    .install false 0]

theorem queue_cut : ∃ s, (system twoValues).Run cut s ∧ s.word = 2 ∧
    (∀ h, s.phase h = .holding 0) ∧ ¬ ∃ l, Queue twoValues s l := by
  have h0 : (system twoValues).Run [] ⟨0, fun _ => .idle, fun _ => none⟩ := .start ⟨rfl, fun _ => rfl⟩
  have h1 := h0.next ⟨true, .call 0, _, rfl, rfl⟩
  have h2 := h1.next ⟨true, .request, _, rfl, rfl⟩
  have h3 := h2.next ⟨false, .call 1, _, rfl, rfl⟩
  have h4 := h3.next ⟨false, .request, _, rfl, rfl⟩
  have h5 := h4.next ⟨false, .compareAndSwap, _, rfl, rfl⟩
  have h6 := h5.next ⟨false, .call 0, _, rfl, rfl⟩
  have h7 := h6.next ⟨false, .request, _, rfl, rfl⟩
  refine ⟨_, h7, rfl, by decide, ?_⟩
  rintro ⟨l, hq⟩
  have hmem : ∀ h, h ∈ l := fun h => (hq.mem h).2 ⟨0, by cases h <;> rfl⟩
  obtain ⟨a, b, l, rfl⟩ : ∃ a b l', l = a :: b :: l' := by
    rcases l with _ | ⟨a, _ | ⟨b, l⟩⟩
    · cases hmem true
    · have h1 := List.mem_singleton.1 (hmem true)
      have h2 := List.mem_singleton.1 (hmem false)
      cases h1.trans h2.symm
    · exact ⟨a, b, l, rfl⟩
  -- the second one in the queue would have received a value
  have hb := (List.isChain_cons_cons.1 hq.linked).1.1
  revert hb
  cases a <;> cases b <;> decide

end Exchange

end Memory

end Farlock
