import Farlock.FARLock.Safety

/-!
# FARLock: the descriptors can be used again

A handler has one descriptor of each class and uses it for all its acquisitions, on whatever lock.
The accesses to another handler's descriptor go through `prev` or `next_` (`Frame.throughPrev`,
`Frame.throughNext`); all other steps commute with changes of that descriptor
(`exec_setDescriptor`). `descriptors_reused`: the owner is then always in the acquisition next to
that of the accessing handler, and nobody is left with a pointer to the descriptor of a handler that
has returned from `Unlock`.
-/

namespace Farlock

namespace FARLock

open Spec
open Clients (steps)

variable {H L : Type}

/-- The descriptor that the next access of a handler reaches through `prev`. -/
def Frame.throughPrev (f : Frame H L) : Option H :=
  match f.pc with
  | .storePrevNext | .loadPrevTicket | .storePrevReleasable => f.prev
  | _ => none

/-- The descriptor that the next access of a handler reaches through the loaded `next_`. -/
def Frame.throughNext (f : Frame H L) : Option H :=
  match f.pc with
  | .storeToGetTicket | .storeGranted => f.next
  | _ => none

theorem inQueue_iff {f : Frame H L} : f.pc.inQueue = true ↔ f.phase ≠ .absent := by
  unfold Frame.phase
  cases f.pc <;> simp only [Pc.inQueue] <;> first | decide | (split <;> decide)

/-- Handler `g` has a pointer to the descriptor of `h` that a later step of its `Lock` or `Unlock`
may follow: the `prev` that it has not finished with, a `next_` that it has loaded, or the one in
its own descriptor. -/
def Follows (C : Cluster H L) (s : State H L) (g h : H) : Prop :=
  ∃ f, s.thread g = .busy f ∧ (f.throughPrev = some h ∨ f.throughNext = some h ∨
    f.pc.inQueue = true ∧ (s.descriptor (C.side g f.lock) g).next = some h)

variable [DecidableEq H] [DecidableEq L] {C : Cluster H L} {tr : List (L × Event H UInt64)}
  {s : State H L}

/-- Handler `n` is in the acquisition that has place `p` among those of class `c` on lock `l`. -/
def Engaged (C : Cluster H L) (tr : List (L × Event H UInt64)) (s : State H L) (l : L) (c : Side)
    (p : ℕ) (n : H) : Prop :=
  Queued s l n ∧ C.side n l = c ∧ (register (onLock l tr)).place n = p

/-- A step that does not go through a pointer to `n` neither reads nor writes the descriptors of
`n`. -/
theorem exec_setDescriptor {h n : H} {f : Frame H L} (hne : n ≠ h) (hp : f.throughPrev ≠ some n)
    (hn : f.throughNext ≠ some n) (c : Side) (d : Descriptor H) (b : Bool) :
    exec C (s.setDescriptor c n d) h f b =
      (exec C s h f b).map fun y => (y.1.setDescriptor c n d, y.2) := by
  have hd : ∀ c' g, g ≠ n → (s.setDescriptor c n d).descriptor c' g = s.descriptor c' g := by
    intro c' g hg
    simp [hg]
  have hcomm : ∀ c' g d', g ≠ n → (s.setDescriptor c n d).setDescriptor c' g d' =
      (s.setDescriptor c' g d').setDescriptor c n d := by
    intro c' g d' hg
    exact setDescriptor_comm s c n d hg c' d'
  cases hpc : f.pc
  case storePrevNext | loadPrevTicket | storePrevReleasable =>
    cases hprev : f.prev with
    | none => simp [exec, hpc, hprev]
    | some p =>
      have hpn : p ≠ n := by simpa [Frame.throughPrev, hpc, hprev] using hp
      simp only [exec, hpc, hprev, Option.map_some, hd _ _ hpn, hcomm _ _ _ hpn]
      rfl
  case storeToGetTicket | storeGranted =>
    cases hnext : f.next with
    | none => simp [exec, hpc, hnext]
    | some p =>
      have hpn : p ≠ n := by simpa [Frame.throughNext, hpc, hnext] using hn
      simp only [exec, hpc, hnext, Option.map_some, hd _ _ hpn, hcomm _ _ _ hpn]
      rfl
  case exchangeTail | awaitTicket | casTail =>
    simp only [exec, hpc, setDescriptor_locks, apply_ite (Option.map _), Option.map_some]
    rfl
  all_goals
    simp only [exec, hpc, hd _ _ hne.symm, setDescriptor_locks, hcomm _ _ _ hne.symm, Option.map_some]
    rfl

/-- The acquisitions in the queues belong to handlers that are engaged in them. -/
theorem engaged_of_acq {k : L → Spec.State H} {pos : H → ℕ} (hS : Sim view config C tr s k pos)
    {l : L} {c : Side} {p : ℕ} {n : H} (hw : ((k l).acq c p).who = some n)
    (hg : ((k l).acq c p).phase ≠ .gone) : Engaged C tr s l c p n := by
  obtain ⟨f, hf, hl, hc, hq, hp⟩ := hS.exists_of_who hw hg
  exact ⟨⟨f, hf, hl, inQueue_iff.2 hq⟩, hc, hp⟩

section Neighbours

variable {k : L → Spec.State H} {pos : H → ℕ} {g n : H} {f : Frame H L}
  (hS : Sim view config C tr s k pos) (hf : s.thread g = .busy f)
include hS hf

/-- Behind `prev` is the acquisition just before. -/
theorem engaged_of_throughPrev (hn : f.throughPrev = some n) :
    f.pc.inQueue = true ∧ ∃ p, pos g = p + 1 ∧ Engaged C tr s f.lock (C.side g f.lock) p n := by
  have hpc : f.prev = some n ∧ 1 ≤ f.phase.rank ∧ f.phase.rank ≤ 3 := by
    unfold Frame.throughPrev at hn
    unfold Frame.phase
    split at hn <;> simp_all [Phase.rank]
  obtain ⟨hprev, h1, h3⟩ := hpc
  have hq : f.phase ≠ .absent := fun habs => by simp [habs, Phase.rank] at h1
  obtain ⟨hg, m, hm, hw⟩ := pred_present hS hf hq h1 h3
  obtain rfl : n = m := Option.some.inj (hprev.symm.trans hm)
  refine ⟨inQueue_iff.2 hq, ?_⟩
  cases hpos : pos g with
  | zero => simp [hpos, State.pred, sentinel] at hg
  | succ p =>
    rw [hpos, pred_succ] at hg hw
    exact ⟨p, rfl, engaged_of_acq hS hw hg⟩

/-- The successor of an acquisition in a queue. -/
theorem engaged_of_succ (hq : f.phase ≠ .absent)
    (hw : ((k f.lock).acq (C.side g f.lock) (pos g + 1)).who = some n) :
    Engaged C tr s f.lock (C.side g f.lock) (pos g + 1) n := by
  obtain ⟨f', hf', hl, hc, hq', hp⟩ := hS.exists_of_succ hf hq hw
  exact ⟨⟨f', hf', hl, inQueue_iff.2 hq'⟩, hc, hp⟩

/-- Behind a loaded `next_` is the acquisition just after. -/
theorem engaged_of_throughNext (hn : f.throughNext = some n) :
    f.pc.inQueue = true ∧ Engaged C tr s f.lock (C.side g f.lock) (pos g + 1) n := by
  have hpc : f.next = some n ∧ (f.pc = .storeToGetTicket ∨ f.pc = .storeGranted) := by
    unfold Frame.throughNext at hn
    split at hn <;> simp_all
  have hq : f.phase ≠ .absent := by
    rcases hpc.2 with hpc | hpc <;> simp [Frame.phase, hpc]
  have hsucc := (agrees_of_sim hS hf hq).succ hpc.2
  exact ⟨inQueue_iff.2 hq, engaged_of_succ hS hf hq (hsucc.symm.trans hpc.1)⟩

/-- So it is behind the `next_` of the handler's own descriptor. -/
theorem engaged_of_next (hq : f.pc.inQueue = true)
    (hn : (s.descriptor (C.side g f.lock) g).next = some n) :
    Engaged C tr s f.lock (C.side g f.lock) (pos g + 1) n := by
  have hq := inQueue_iff.1 hq
  rw [(agrees_of_sim hS hf hq).next] at hn
  split_ifs at hn with hl
  exact engaged_of_succ hS hf hq hn

end Neighbours

/-- The descriptors are safe to use again.  While a handler is outside, no other handler has a
pointer to its descriptor that it may still follow.  Whenever a handler goes through `prev`, the
owner is in the acquisition just before its own, the one that its tail exchange found; whenever it
goes through `next_`, the owner is in the acquisition just after its own, the one that stored the
link.  No other step touches the descriptor of another handler. -/
theorem descriptors_reused (hr : (system C).Run tr s) :
    (∀ h, s.thread h = .idle → ∀ g, ¬ Follows C s g h) ∧
    (∀ g f n, s.thread g = .busy f → f.throughPrev = some n → ∃ p,
      Engaged C tr s f.lock (C.side g f.lock) p n ∧
        Engaged C tr s f.lock (C.side g f.lock) (p + 1) g) ∧
    (∀ g f n, s.thread g = .busy f → f.throughNext = some n → ∃ p,
      Engaged C tr s f.lock (C.side g f.lock) p g ∧
        Engaged C tr s f.lock (C.side g f.lock) (p + 1) n) ∧
    (∀ g f n, s.thread g = .busy f → n ≠ g → f.throughPrev ≠ some n → f.throughNext ≠ some n →
      ∀ c d b, exec C (s.setDescriptor c n d) g f b =
        (exec C s g f b).map fun y => (y.1.setDescriptor c n d, y.2)) := by
  obtain ⟨k, pos, hS⟩ := simulated_of_run hr
  have hself : ∀ {g f}, s.thread g = .busy f → f.pc.inQueue = true →
      Engaged C tr s f.lock (C.side g f.lock) (pos g) g := fun {g f} hf hq =>
    ⟨⟨f, hf, rfl, hq⟩, rfl, hS.place_eq hf (inQueue_iff.1 hq)⟩
  refine ⟨?_, ?_, ?_, fun g f n _ hne hp hn c d b => exec_setDescriptor hne hp hn c d b⟩
  · rintro h hidle g ⟨f, hf, hn | hn | ⟨hq, hn⟩⟩
    · obtain ⟨-, p, -, ⟨f', hf', -⟩, -⟩ := engaged_of_throughPrev hS hf hn
      simp [hidle] at hf'
    · obtain ⟨-, ⟨f', hf', -⟩, -⟩ := engaged_of_throughNext hS hf hn
      simp [hidle] at hf'
    · obtain ⟨⟨f', hf', -⟩, -⟩ := engaged_of_next hS hf hq hn
      simp [hidle] at hf'
  · intro g f n hf hn
    obtain ⟨hq, p, hpos, hE⟩ := engaged_of_throughPrev hS hf hn
    exact ⟨p, hE, hpos ▸ hself hf hq⟩
  · intro g f n hf hn
    obtain ⟨hq, hE⟩ := engaged_of_throughNext hS hf hn
    exact ⟨pos g, hself hf hq, hE⟩

/-- One lock and two handlers on its node. -/
def duo : Cluster Bool Unit where
  node _ := 0
  home _ := 0
  localAddress h := if h then 64 else 128
  remoteAddress h := if h then 64 else 128
  localAddress_ne_zero := by decide
  localAddress_inj := by decide
  remoteAddress_ne_zero := by decide
  remoteAddress_lt := by decide
  remoteAddress_inj := by decide

/-- Handler `true` is about to link itself behind handler `false`, which is in its critical
section. -/
theorem descriptors_reused_duo : ∃ (s : State Bool Unit) (tr : List (Unit × Event Bool UInt64)) (f : _),
    (system duo).Run tr s ∧ s.thread true = .busy f ∧ f.throughPrev = some false ∧
    ∃ p, Engaged duo tr s () .loc p false ∧ Engaged duo tr s () .loc (p + 1) true := by
  obtain ⟨y, hy, hf⟩ : ∃ y ∈ State.play (fun l => { lock := l }) (exec duo) (.zero {})
      ((false, .call ()) :: steps false 16 ++ (true, .call ()) :: steps true 6),
      y.1.thread true = .busy { lock := (), pc := .storePrevNext, prev := some false } := by decide
  have hrun : (system duo).Run y.2 y.1 := State.run_of_mem_play hy
  exact ⟨y.1, y.2, _, hrun, hf, rfl, (descriptors_reused hrun).2.1 true _ false hf rfl⟩

end FARLock

end Farlock
