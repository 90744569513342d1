import Farlock.Lib.Transition

/-!
# Sequential programs that meet to exchange messages

The nodes `N` of a system run sequential programs (`Prog`) that send values to each other and
receive them. An operation is posted first and completes later; a message is delivered when its send
and the matching receive are both posted, so that neither completes without the other (`Node`,
`system`).

A list of messages is a common schedule when every node, on its own, is ready to go through the
messages that concern it in the order of the list (`Follows`).  If there is one, then in every
interleaving

* no state is stuck before all nodes have returned (`exists_step`);
* a node returns what it returns under the schedule (`result_eq`);
* a node that has returned has met everybody who must send to it (`started_of_returned`);
* no run goes on forever (`not_infinite`), and each can be continued to the end
  (`exists_completion`).

`follows_exchange` is the schedule of pairwise exchanges along a linear order, `broadcast` that of
several nodes that send to all the others.
-/

namespace Rendezvous

/-- A program of a node: it returns, sends or receives a value and goes on, or dies. -/
inductive Prog (N V : Type) (R : Type) : Type
  | ret (r : R)
  | send (dst : N) (v : V) (next : Prog N V R)
  | recv (src : N) (next : V → Prog N V R)
  | abort

/-- A value on its way from one node to another. -/
structure Msg (N V : Type) where
  src : N
  dst : N
  val : V
  deriving DecidableEq

namespace Prog

variable {N V R S : Type}

/-- Run `p`, then `f` with what it returned. -/
def bind : Prog N V R → (R → Prog N V S) → Prog N V S
  | .ret r, f => f r
  | .send i v p, f => .send i v (p.bind f)
  | .recv i p, f => .recv i fun v => (p v).bind f
  | .abort, _ => .abort

instance : Monad (Prog N V) where
  pure := .ret
  bind := bind

/-- The first operation of the program is a send or a receive. -/
def isOp : Prog N V R → Bool
  | .send .. | .recv .. => true
  | _ => false

/-- Send a value. -/
def put (i : N) (v : V) : Prog N V Unit := .send i v (.ret ())

/-- Receive a value. -/
def get (i : N) : Prog N V V := .recv i .ret

/-- Whatever the program receives, it sends to `i` before it returns. -/
def SendsTo (i : N) : Prog N V R → Prop
  | .ret _ => False
  | .send j _ p => j = i ∨ p.SendsTo i
  | .recv _ p => ∀ v, (p v).SendsTo i
  | .abort => True

@[simp] theorem ret_bind (r : R) (f : R → Prog N V S) : (Prog.ret r >>= f) = f r := rfl
@[simp] theorem pure_eq (r : R) : (pure r : Prog N V R) = .ret r := rfl

@[simp] theorem put_bind (i : N) (v : V) (f : Unit → Prog N V S) :
    (put i v >>= f) = .send i v (f ()) := rfl

@[simp] theorem get_bind (i : N) (f : V → Prog N V S) : (get i >>= f) = .recv i f := rfl

@[simp] theorem abort_bind (f : R → Prog N V S) : ((.abort : Prog N V R) >>= f) = .abort := rfl

theorem bind_ret (p : Prog N V R) : (p >>= .ret) = p := by
  change p.bind .ret = p
  induction p with
  | ret => rfl
  | send i v p ih => exact congrArg (Prog.send i v) ih
  | recv i p ih => exact congrArg (Prog.recv i) (funext ih)
  | abort => rfl

theorem SendsTo.bind {i : N} {p : Prog N V R} (h : p.SendsTo i) (f : R → Prog N V S) :
    (p >>= f).SendsTo i := by
  change (p.bind f).SendsTo i
  induction p with
  | ret => exact h.elim
  | send j v p ih => exact h.imp_right ih
  | recv j p ih => exact fun v => ih v (h v)
  | abort => trivial

theorem sendsTo_bind_of {i : N} (p : Prog N V R) {f : R → Prog N V S}
    (h : ∀ r, (f r).SendsTo i) : (p >>= f).SendsTo i := by
  change (p.bind f).SendsTo i
  induction p with
  | ret r => exact h r
  | send j v p ih => exact Or.inr ih
  | recv j p ih => exact fun v => ih v
  | abort => trivial

end Prog

section Follows

variable {N V R S : Type} [DecidableEq N]

/-- Node `x` with program `p` is ready to go through its messages in the order of the list, and then
returns `r`. -/
def Follows (x : N) : List (Msg N V) → Prog N V R → R → Prop
  | [], p, r => p = .ret r
  | m :: σ, p, r =>
      if m.src = x then m.dst ≠ x ∧ ∃ k, p = .send m.dst m.val k ∧ Follows x σ k r
      else if m.dst = x then ∃ k, p = .recv m.src k ∧ Follows x σ (k m.val) r
      else Follows x σ p r

variable {x : N} {σ τ : List (Msg N V)} {p : Prog N V R} {r r' : R} {m : Msg N V}

theorem follows_src {i : N} {v : V} (hne : i ≠ x) (h : Follows x σ p r) :
    Follows x (⟨x, i, v⟩ :: σ) (.send i v p) r := by
  rw [Follows, if_pos rfl]
  exact ⟨hne, p, rfl, h⟩

theorem follows_dst {i : N} {v : V} {k : V → Prog N V R} (hne : i ≠ x) (h : Follows x σ (k v) r) :
    Follows x (⟨i, x, v⟩ :: σ) (.recv i k) r := by
  rw [Follows, if_neg hne, if_pos rfl]
  exact ⟨k, rfl, h⟩

theorem follows_other (hs : m.src ≠ x) (hd : m.dst ≠ x) :
    Follows x (m :: σ) p r ↔ Follows x σ p r := by
  rw [Follows, if_neg hs, if_neg hd]

/-- Messages between other nodes can be left out. -/
theorem follows_append_other (h : ∀ m ∈ τ, m.src ≠ x ∧ m.dst ≠ x) :
    Follows x (τ ++ σ) p r ↔ Follows x σ p r := by
  induction τ with
  | nil => rfl
  | cons m τ ih =>
    have hm := h m (by simp)
    rw [List.cons_append, follows_other hm.1 hm.2]
    exact ih fun m' hm' => h m' (by simp [hm'])

/-- A program that has returned follows the messages between other nodes. -/
theorem follows_ret (h : ∀ m ∈ σ, m.src ≠ x ∧ m.dst ≠ x) :
    Follows x σ (.ret r : Prog N V R) r := by
  have := (follows_append_other (σ := []) (p := (.ret r : Prog N V R)) (r := r) h).2 rfl
  rwa [List.append_nil] at this

/-- Schedules of two parts of a program, one after the other. -/
theorem Follows.bind {f : R → Prog N V S} {r' : S} (h : Follows x σ p r)
    (h' : Follows x τ (f r) r') : Follows x (σ ++ τ) (p >>= f) r' := by
  induction σ generalizing p with
  | nil =>
    obtain rfl : p = .ret r := h
    exact h'
  | cons m σ ih =>
    rw [List.cons_append, Follows]
    rw [Follows] at h
    split_ifs at h ⊢ with hs hd
    · obtain ⟨hne, k, rfl, hk⟩ := h
      exact ⟨hne, _, rfl, ih hk⟩
    · obtain ⟨k, rfl, hk⟩ := h
      exact ⟨_, rfl, ih hk⟩
    · exact ih h

/-- The schedule of a loop. -/
theorem follows_foldlM {α : Type} {l : List α} {step : R → α → Prog N V R}
    {msgs : α → List (Msg N V)} {next : R → α → R} (r : R)
    (h : ∀ r, ∀ a ∈ l, Follows x (msgs a) (step r a) (next r a)) :
    Follows x (l.flatMap msgs) (l.foldlM step r) (l.foldl next r) := by
  induction l generalizing r with
  | nil => rfl
  | cons a l ih =>
    rw [List.flatMap_cons, List.foldlM_cons, List.foldl_cons]
    exact (h r a (by simp)).bind (ih _ fun r a ha => h r a (by simp [ha]))

theorem follows_forM {α : Type} {l : List α} {f : α → Prog N V Unit} {msgs : α → List (Msg N V)}
    (h : ∀ a ∈ l, Follows x (msgs a) (f a) ()) : Follows x (l.flatMap msgs) (l.forM f) () := by
  induction l with
  | nil => rfl
  | cons a l ih =>
    rw [List.flatMap_cons]
    exact (h a (by simp)).bind (ih fun b hb => h b (by simp [hb]))

/-- A program that has returned has no messages left. -/
theorem Follows.of_ret (h : Follows x σ (.ret r : Prog N V R) r') :
    r = r' ∧ ∀ m ∈ σ, m.src ≠ x ∧ m.dst ≠ x := by
  induction σ with
  | nil => exact ⟨by simpa [Follows] using h, by simp⟩
  | cons m σ ih =>
    rw [Follows] at h
    split_ifs at h with hs hd
    · obtain ⟨-, k, hk, -⟩ := h
      cases hk
    · obtain ⟨k, hk, -⟩ := h
      cases hk
    · obtain ⟨hr, hall⟩ := ih h
      refine ⟨hr, fun m' hm' => ?_⟩
      rcases List.mem_cons.1 hm' with rfl | hm'
      · exact ⟨hs, hd⟩
      · exact hall m' hm'

/-- A program that has to send to `i` has a message for `i` in its schedule. -/
theorem Follows.exists_msg {i : N} (h : Follows x σ p r) (hp : p.SendsTo i) :
    ∃ m ∈ σ, m.src = x ∧ m.dst = i := by
  induction σ generalizing p with
  | nil =>
    obtain rfl : p = .ret r := h
    exact hp.elim
  | cons m σ ih =>
    rw [Follows] at h
    split_ifs at h with hs hd
    · obtain ⟨-, k, rfl, hk⟩ := h
      rcases hp with hi | hp
      · exact ⟨m, by simp, hs, hi⟩
      · obtain ⟨m', hm', he⟩ := ih hk hp
        exact ⟨m', by simp [hm'], he⟩
    · obtain ⟨k, rfl, hk⟩ := h
      obtain ⟨m', hm', he⟩ := ih hk (hp m.val)
      exact ⟨m', by simp [hm'], he⟩
    · obtain ⟨m', hm', he⟩ := ih h hp
      exact ⟨m', by simp [hm'], he⟩

/-- The first message of a schedule that concerns `x`, when the program is about to send. -/
theorem Follows.send {i : N} {v : V} (h : Follows x σ (.send i v p) r) :
    ∃ τ τ', σ = τ ++ ⟨x, i, v⟩ :: τ' ∧ (∀ m ∈ τ, m.src ≠ x ∧ m.dst ≠ x) ∧
      Follows x (τ ++ τ') p r := by
  induction σ with
  | nil => cases h
  | cons m σ ih =>
    rw [Follows] at h
    split_ifs at h with hs hd
    · obtain ⟨-, k, hk, hf⟩ := h
      obtain ⟨rfl, rfl, rfl⟩ : i = m.dst ∧ v = m.val ∧ p = k := by simpa using hk
      exact ⟨[], σ, by subst hs; rfl, by simp, hf⟩
    · obtain ⟨k, hk, -⟩ := h
      cases hk
    · obtain ⟨τ, τ', rfl, hτ, hf⟩ := ih h
      refine ⟨m :: τ, τ', rfl, ?_, ?_⟩
      · intro m' hm'
        rcases List.mem_cons.1 hm' with rfl | hm'
        · exact ⟨hs, hd⟩
        · exact hτ m' hm'
      · exact (follows_other hs hd).2 hf

/-- The first message of a schedule that concerns `x`, when the program is about to receive. -/
theorem Follows.recv {i : N} {k : V → Prog N V R} (h : Follows x σ (.recv i k) r) :
    ∃ v τ τ', σ = τ ++ ⟨i, x, v⟩ :: τ' ∧ i ≠ x ∧ (∀ m ∈ τ, m.src ≠ x ∧ m.dst ≠ x) ∧
      Follows x (τ ++ τ') (k v) r := by
  induction σ with
  | nil => cases h
  | cons m σ ih =>
    rw [Follows] at h
    split_ifs at h with hs hd
    · obtain ⟨-, k', hk, -⟩ := h
      cases hk
    · obtain ⟨k', hk, hf⟩ := h
      obtain ⟨rfl, rfl⟩ : i = m.src ∧ k = k' := by simpa using hk
      exact ⟨m.val, [], σ, by subst hd; rfl, hs, by simp, hf⟩
    · obtain ⟨v, τ, τ', rfl, hi, hτ, hf⟩ := ih h
      refine ⟨v, m :: τ, τ', rfl, hi, ?_, ?_⟩
      · intro m' hm'
        rcases List.mem_cons.1 hm' with rfl | hm'
        · exact ⟨hs, hd⟩
        · exact hτ m' hm'
      · exact (follows_other hs hd).2 hf

/-- A message between other nodes can be left out. -/
theorem follows_erase (hs : m.src ≠ x) (hd : m.dst ≠ x) :
    Follows x (σ ++ m :: τ) p r ↔ Follows x (σ ++ τ) p r := by
  induction σ generalizing p with
  | nil => exact follows_other hs hd
  | cons m' σ ih =>
    simp only [List.cons_append, Follows]
    split_ifs
    · simp only [ih]
    · simp only [ih]
    · exact ih

end Follows

/-! ### The system of all nodes -/

/-- A node that has not started its program, that is about to post its next operation, that has
posted it, or whose posted operation is complete. -/
inductive Node (N V R : Type) : Type
  | outside (p : Prog N V R)
  | run (p : Prog N V R)
  | posted (p : Prog N V R)
  | completed (p : Prog N V R)

/-- What is left of the program of a node. -/
def Node.prog {N V R : Type} : Node N V R → Prog N V R
  | .outside p | .run p | .posted p | .completed p => p

section System

variable {N V R : Type} [DecidableEq N]

/-- The steps of the nodes and of the network.  A send completes only together with the receive it
matches. -/
inductive Step : (N → Node N V R) → Option (Msg N V) → (N → Node N V R) → Prop
  | start {s : N → Node N V R} {x : N} {p : Prog N V R} (h : s x = .outside p) :
      Step s none (Function.update s x (.run p))
  | post {s : N → Node N V R} {x : N} {p : Prog N V R} (h : s x = .run p) (hp : p.isOp = true) :
      Step s none (Function.update s x (.posted p))
  | deliver {s : N → Node N V R} {a b : N} {v : V} {k : Prog N V R} {k' : V → Prog N V R}
      (ha : s a = .posted (.send b v k)) (hb : s b = .posted (.recv a k')) :
      Step s (some ⟨a, b, v⟩)
        (Function.update (Function.update s a (.completed k)) b (.completed (k' v)))
  | complete {s : N → Node N V R} {x : N} {p : Prog N V R} (h : s x = .completed p) :
      Step s none (Function.update s x (.run p))

/-- The system in which node `x` runs the program `prog x`. -/
def system (prog : N → Prog N V R) : Lts (N → Node N V R) (Msg N V) where
  init s := ∀ x, s x = .outside (prog x)
  step := Step

/-- The messages `σ` are a common schedule for what is left of the programs. -/
structure Inv (prog : N → Prog N V R) (res : N → R) (σ : List (Msg N V)) (s : N → Node N V R) :
    Prop where
  follows : ∀ x, Follows x σ (s x).prog (res x)
  op : ∀ x p, s x = .posted p → p.isOp = true
  outside : ∀ x p, s x = .outside p → p = prog x

variable {prog : N → Prog N V R} {res : N → R} {σ : List (Msg N V)} {s s' : N → Node N V R}

/-- A step of one node that leaves its program as it is. -/
theorem Inv.update (hI : Inv prog res σ s) {x : N} {n : Node N V R} (hp : n.prog = (s x).prog)
    (hop : ∀ p, n = .posted p → p.isOp = true) (hout : ∀ p, n ≠ .outside p) :
    Inv prog res σ (Function.update s x n) := by
  refine ⟨fun y => ?_, fun y p hy => ?_, fun y p hy => ?_⟩
  · by_cases hyx : y = x
    · subst hyx
      rw [Function.update_self, hp]
      exact hI.follows y
    · rw [Function.update_of_ne hyx]
      exact hI.follows y
  · by_cases hyx : y = x
    · subst hyx
      exact hop p (by simpa using hy)
    · exact hI.op y p (by simpa [hyx] using hy)
  · by_cases hyx : y = x
    · subst hyx
      exact absurd (by simpa using hy) (hout p)
    · exact hI.outside y p (by simpa [hyx] using hy)

/-- The message that two nodes are ready to exchange is the next one for both of them. -/
theorem Inv.deliver (hI : Inv prog res σ s) {a b : N} {v : V} {k : Prog N V R}
    {k' : V → Prog N V R} (ha : s a = .posted (.send b v k)) (hb : s b = .posted (.recv a k')) :
    ∃ σ', σ.Perm (⟨a, b, v⟩ :: σ') ∧ Inv prog res σ'
      (Function.update (Function.update s a (.completed k)) b (.completed (k' v))) := by
  have hfa := hI.follows a
  have hfb := hI.follows b
  rw [ha] at hfa
  rw [hb] at hfb
  obtain ⟨τ, τ', rfl, hτ, hfa⟩ := hfa.send
  obtain ⟨w, τ₂, τ₂', heq, hab, hτ₂, hfb⟩ := hfb.recv
  obtain ⟨rfl, rfl, rfl⟩ : τ = τ₂ ∧ v = w ∧ τ' = τ₂' := by
    rcases List.append_eq_append_iff.1 heq with ⟨u, hu, hu'⟩ | ⟨u, hu, hu'⟩
    · cases u with
      | nil =>
        obtain ⟨hm, rfl⟩ := List.cons.inj hu'
        obtain ⟨-, -, rfl⟩ := Msg.mk.inj hm
        exact ⟨by simpa using hu.symm, rfl, rfl⟩
      | cons m u =>
        obtain ⟨rfl, -⟩ := List.cons.inj hu'
        exact absurd rfl (hτ₂ ⟨a, b, v⟩ (by simp [hu])).2
    · cases u with
      | nil =>
        obtain ⟨hm, rfl⟩ := List.cons.inj hu'
        obtain ⟨-, -, rfl⟩ := Msg.mk.inj hm
        exact ⟨by simpa using hu, rfl, rfl⟩
      | cons m u =>
        obtain ⟨rfl, -⟩ := List.cons.inj hu'
        exact absurd rfl (hτ ⟨a, b, w⟩ (by simp [hu])).1
  refine ⟨τ ++ τ', List.perm_middle, fun y => ?_, fun y p hy => ?_, fun y p hy => ?_⟩
  · by_cases hyb : y = b
    · subst hyb
      rwa [Function.update_self]
    · rw [Function.update_of_ne hyb]
      by_cases hya : y = a
      · subst hya
        rwa [Function.update_self]
      · rw [Function.update_of_ne hya]
        exact (follows_erase (Ne.symm hya) (Ne.symm hyb)).1 (hI.follows y)
  · by_cases hyb : y = b
    · simp [hyb] at hy
    · by_cases hya : y = a
      · simp [hya, hab] at hy
      · exact hI.op y p (by simpa [hya, hyb] using hy)
  · by_cases hyb : y = b
    · simp [hyb] at hy
    · by_cases hya : y = a
      · simp [hya, hab] at hy
      · exact hI.outside y p (by simpa [hya, hyb] using hy)

theorem Inv.step (hI : Inv prog res σ s) {e : Option (Msg N V)} (hs : Step s e s') :
    ∃ σ', σ.Perm (e.toList ++ σ') ∧ Inv prog res σ' s' := by
  cases hs with
  | start h => exact ⟨σ, .refl σ, hI.update (by rw [h]; rfl) (by simp) (by simp)⟩
  | post h hp =>
    refine ⟨σ, .refl σ, hI.update (by rw [h]; rfl) (fun p he => ?_) (by simp)⟩
    obtain rfl := Node.posted.inj he
    exact hp
  | deliver ha hb => exact hI.deliver ha hb
  | complete h => exact ⟨σ, .refl σ, hI.update (by rw [h]; rfl) (by simp) (by simp)⟩

section Schedule

variable (hσ : ∀ x, Follows x σ (prog x) (res x)) {tr : List (Msg N V)}
  (hr : (system prog).Run tr s)
include hσ hr

/-- What has been delivered and what is still to come is the schedule. -/
theorem exists_inv : ∃ σ', σ.Perm (tr ++ σ') ∧ Inv prog res σ' s := by
  refine hr.invariant (I := fun tr s => ∃ σ', σ.Perm (tr ++ σ') ∧ Inv prog res σ' s) ?_ ?_
  · intro s hs
    refine ⟨σ, .refl σ, fun x => ?_, fun x p hp => ?_, fun x p hp => ?_⟩
    · rw [hs x]
      exact hσ x
    · simp [hs x] at hp
    · simpa [hs x] using hp.symm
  · rintro tr s e s' - ⟨σ', hperm, hI⟩ hs
    obtain ⟨σ'', hperm', hI'⟩ := hI.step hs
    refine ⟨σ'', ?_, hI'⟩
    rw [List.append_assoc]
    exact hperm.trans (hperm'.append_left tr)

/-- No state is stuck before all nodes have returned. -/
theorem exists_step : (∀ x, s x = .run (.ret (res x))) ∨ ∃ e s', (system prog).step s e s' := by
  obtain ⟨σ', -, hI⟩ := exists_inv hσ hr
  -- a node that is not about to post an operation and has not posted one can move
  have hmove : ∀ x, (∃ e s', Step s e s') ∨ (s x = .posted (s x).prog ∧ (s x).prog.isOp = true) ∨
      s x = .run (s x).prog ∧ (s x).prog.isOp = false := by
    intro x
    cases hx : s x with
    | outside p => exact Or.inl ⟨_, _, .start hx⟩
    | completed p => exact Or.inl ⟨_, _, .complete hx⟩
    | posted p => exact Or.inr (Or.inl ⟨rfl, hI.op x p hx⟩)
    | run p =>
      cases hp : p.isOp with
      | true => exact Or.inl ⟨_, _, .post hx hp⟩
      | false => exact Or.inr (Or.inr ⟨rfl, hp⟩)
  by_contra hno
  obtain ⟨hret, hstuck⟩ := not_or.1 hno
  have hrest : ∀ x, (s x = .posted (s x).prog ∧ (s x).prog.isOp = true) ∨
      s x = .run (s x).prog ∧ (s x).prog.isOp = false := fun x =>
    (hmove x).resolve_left hstuck
  cases σ' with
  | nil =>
    refine hret fun x => ?_
    have hx : (s x).prog = .ret (res x) := hI.follows x
    rcases hrest x with ⟨-, hop⟩ | ⟨hx', -⟩
    · rw [hx] at hop
      cases hop
    · rw [hx', hx]
  | cons m σ' =>
    -- both ends of the first message are ready for it
    have ha := hI.follows m.src
    rw [Follows, if_pos rfl] at ha
    obtain ⟨hba, k, hk, -⟩ := ha
    have hb := hI.follows m.dst
    rw [Follows, if_neg hba.symm, if_pos rfl] at hb
    obtain ⟨k', hk', -⟩ := hb
    have hpa : s m.src = .posted (.send m.dst m.val k) := by
      rcases hrest m.src with ⟨h, -⟩ | ⟨-, h⟩
      · rw [h, hk]
      · rw [hk] at h
        cases h
    have hpb : s m.dst = .posted (.recv m.src k') := by
      rcases hrest m.dst with ⟨h, -⟩ | ⟨-, h⟩
      · rw [h, hk']
      · rw [hk'] at h
        cases h
    exact hstuck ⟨_, _, .deliver hpa hpb⟩

/-- A node returns what it returns under the schedule. -/
theorem result_eq {x : N} {r : R} (hx : s x = .run (.ret r)) : r = res x := by
  obtain ⟨σ', -, hI⟩ := exists_inv hσ hr
  have h := hI.follows x
  rw [hx] at h
  exact h.of_ret.1

/-- Only messages of the schedule are delivered. -/
theorem mem_schedule {m : Msg N V} (hm : m ∈ tr) : m ∈ σ := by
  obtain ⟨σ', hperm, -⟩ := exists_inv hσ hr
  exact hperm.mem_iff.2 (List.mem_append_left σ' hm)

/-- When a node has returned, everybody who has to send to it has started. -/
theorem started_of_returned {x y : N} {r : R} (hx : s x = .run (.ret r))
    (hy : (prog y).SendsTo x) (p : Prog N V R) : s y ≠ .outside p := by
  intro hout
  obtain ⟨σ', -, hI⟩ := exists_inv hσ hr
  have h := hI.follows x
  rw [hx] at h
  have h' := hI.follows y
  rw [hout] at h'
  obtain rfl := hI.outside y p hout
  obtain ⟨m, hm, -, hdst⟩ := h'.exists_msg hy
  exact (h.of_ret.2 m hm).2 hdst

end Schedule

/-! ### Termination -/

section Termination

variable [Fintype N]

/-- The steps that a node has before it to the next message, counted so that every step costs
one. -/
def Node.cost : Node N V R → ℕ
  | .outside _ | .completed _ => 2
  | .run _ => 1
  | .posted _ => 0

/-- The number of steps that are left when the messages `σ` are still to be delivered, and one for
each node. -/
def potential (σ : List (Msg N V)) (s : N → Node N V R) : ℕ := 5 * σ.length + ∑ x, (s x).cost

theorem sum_cost_update (s : N → Node N V R) (x : N) (n : Node N V R) :
    ∑ y, (Function.update s x n y).cost + (s x).cost = ∑ y, (s y).cost + n.cost := by
  have hsum := Finset.sum_update_of_mem (Finset.mem_univ x) (fun y => (s y).cost) n.cost
  have hsplit := Finset.add_sum_erase Finset.univ (fun y => (s y).cost) (Finset.mem_univ x)
  have hcost : ∀ y, (Function.update s x n y).cost =
      Function.update (fun y => (s y).cost) x n.cost y := fun y => by
    by_cases hy : y = x
    · subst hy
      simp
    · simp [hy]
  simp only [hcost, hsum, Finset.sdiff_singleton_eq_erase]
  omega

theorem Inv.potential_step (hI : Inv prog res σ s) {e : Option (Msg N V)} (hs : Step s e s') :
    ∃ σ', Inv prog res σ' s' ∧ potential σ' s' < potential σ s := by
  obtain ⟨σ', hperm, hI'⟩ := hI.step hs
  refine ⟨σ', hI', ?_⟩
  have hlen := hperm.length_eq
  rw [List.length_append] at hlen
  unfold potential
  cases hs with
  | @start x p h =>
    have := sum_cost_update s x (.run p)
    simp only [h, Node.cost, Option.toList_none, List.length_nil] at this hlen ⊢
    omega
  | @post x p h hp =>
    have := sum_cost_update s x (.posted p)
    simp only [h, Node.cost, Option.toList_none, List.length_nil] at this hlen ⊢
    omega
  | @deliver a b v k k' ha hb =>
    have hab : b ≠ a := by
      rintro rfl
      rw [ha] at hb
      cases hb
    have h1 := sum_cost_update s a (.completed k)
    have h2 := sum_cost_update (Function.update s a (.completed k)) b (.completed (k' v))
    rw [Function.update_of_ne hab, hb] at h2
    rw [ha] at h1
    simp only [Node.cost, Option.toList_some, List.length_singleton] at h1 h2 hlen ⊢
    omega
  | @complete x p h =>
    have := sum_cost_update s x (.run p)
    simp only [h, Node.cost, Option.toList_none, List.length_nil] at this hlen ⊢
    omega

/-- No run goes on forever. -/
theorem not_infinite (hσ : ∀ x, Follows x σ (prog x) (res x)) (f : ℕ → N → Node N V R)
    (h0 : (system prog).init (f 0)) : ¬ ∀ n, ∃ e, (system prog).step (f n) e (f (n + 1)) := by
  intro hf
  have hpot : ∀ n, ∃ σ', Inv prog res σ' (f n) ∧ potential σ' (f n) + n ≤ potential σ (f 0) := by
    intro n
    induction n with
    | zero =>
      obtain ⟨σ', hperm, hI⟩ := exists_inv hσ (.start h0)
      refine ⟨σ', hI, ?_⟩
      simp only [potential, hperm.length_eq, List.nil_append]
      omega
    | succ n ih =>
      obtain ⟨σ', hI, hle⟩ := ih
      obtain ⟨e, he⟩ := hf n
      obtain ⟨σ'', hI', hlt⟩ := hI.potential_step he
      exact ⟨σ'', hI', by omega⟩
  obtain ⟨σ', -, hle⟩ := hpot (potential σ (f 0) + 1)
  omega

/-- Every run can be continued until all nodes have returned. -/
theorem exists_completion (hσ : ∀ x, Follows x σ (prog x) (res x)) {tr : List (Msg N V)}
    (hr : (system prog).Run tr s) :
    ∃ tr' s', (system prog).Run (tr ++ tr') s' ∧ ∀ x, s' x = .run (.ret (res x)) := by
  obtain ⟨σ', -, hI⟩ := exists_inv hσ hr
  induction hn : potential σ' s using Nat.strong_induction_on generalizing tr s σ' with
  | _ n ih =>
    obtain hret | ⟨e, s', hs⟩ := exists_step hσ hr
    · exact ⟨[], s, by rwa [List.append_nil], hret⟩
    · obtain ⟨σ'', hI', hlt⟩ := hI.potential_step hs
      obtain ⟨tr', s'', hr', hret⟩ := ih _ (hn ▸ hlt) (hr.next hs) σ'' hI' rfl
      exact ⟨e.toList ++ tr', s'', by rwa [← List.append_assoc], hret⟩

end Termination

end System

/-! ### Pairwise exchanges along a linear order -/

section Exchange

variable {N V R : Type} [LinearOrder N]

/-- Node `x` exchanges its value `v` for that of node `i`; the smaller of the two sends first. -/
def meet (x i : N) (v : V) : Prog N V V :=
  if x < i then do
    .put i v
    .get i
  else do
    let w ← .get i
    .put i v
    pure w

/-- Node `x` meets the other nodes of the list one after the other and folds what it gets. -/
def exchange (x : N) (v : V) (g : R → N → V → R) (l : List N) (r : R) : Prog N V R :=
  l.foldlM (fun r i => if i = x then pure r else do
    let w ← meet x i v
    pure (g r i w)) r

/-- The messages of all pairs of the list, in lexicographic order. -/
def pairs (v : N → V) : List N → List (Msg N V)
  | [] => []
  | a :: l => (l.flatMap fun b => [⟨a, b, v a⟩, ⟨b, a, v b⟩]) ++ pairs v l

variable {x a : N} {v : N → V} {l : List N} {g : R → N → V → R}

omit [LinearOrder N] in
theorem mem_pairs {m : Msg N V} (hm : m ∈ pairs v l) : m.src ∈ l ∧ m.dst ∈ l := by
  induction l with
  | nil => cases hm
  | cons a l ih =>
    rcases List.mem_append.1 hm with hm | hm
    · obtain ⟨b, hb, hm⟩ := List.mem_flatMap.1 hm
      rcases List.mem_pair.1 hm with rfl | rfl
      · exact ⟨by simp, by simp [hb]⟩
      · exact ⟨by simp [hb], by simp⟩
    · exact ⟨List.mem_cons_of_mem _ (ih hm).1, List.mem_cons_of_mem _ (ih hm).2⟩

/-- The exchanges of the smallest node. -/
theorem follows_first (hl : ∀ b ∈ l, a < b) (r : R) :
    Follows a (l.flatMap fun b => [⟨a, b, v a⟩, ⟨b, a, v b⟩]) (exchange a (v a) g l r)
      (l.foldl (fun r i => if i = a then r else g r i (v i)) r) := by
  refine follows_foldlM r fun r b hb => ?_
  have hab := hl b hb
  simp only [if_neg hab.ne', meet, if_pos hab]
  exact follows_src hab.ne' (follows_dst hab.ne' rfl)

/-- The exchanges of the smallest node, as another node sees them. -/
theorem follows_block {σ : List (Msg N V)} {k : V → Prog N V R} {r : R} (hl : l.Nodup)
    (hx : x ∈ l) (hax : a ≠ x) (h : Follows x σ (k (v a)) r) :
    Follows x ((l.flatMap fun b => [⟨a, b, v a⟩, ⟨b, a, v b⟩]) ++ σ)
      (.recv a fun w => .send a (v x) (k w)) r := by
  obtain ⟨l₁, l₂, rfl⟩ := List.append_of_mem hx
  have hfree : ∀ l' : List N, x ∉ l' →
      ∀ m ∈ l'.flatMap fun b => [Msg.mk a b (v a), ⟨b, a, v b⟩], m.src ≠ x ∧ m.dst ≠ x := by
    intro l' hx' m hm
    obtain ⟨b, hb, hm⟩ := List.mem_flatMap.1 hm
    have hbx : b ≠ x := fun e => hx' (e ▸ hb)
    rcases List.mem_pair.1 hm with rfl | rfl
    · exact ⟨hax, hbx⟩
    · exact ⟨hbx, hax⟩
  obtain ⟨-, hl₂, hdisj⟩ := List.nodup_append.1 hl
  rw [List.flatMap_append, List.flatMap_cons, List.append_assoc, List.append_assoc,
    follows_append_other (hfree l₁ fun h1 => hdisj x h1 x (by simp) rfl)]
  refine follows_dst hax (follows_src hax ?_)
  exact (follows_append_other (hfree l₂ (List.nodup_cons.1 hl₂).1)).2 h

theorem exchange_cons (hax : a < x) (w : V) (r : R) :
    exchange x w g (a :: l) r =
      .recv a fun u => .send a w (exchange x w g l (g r a u)) := by
  rw [exchange, List.foldlM_cons, if_neg hax.ne, meet, if_neg hax.not_gt]
  rfl

/-- The pairs in lexicographic order are a common schedule for the exchanges. -/
theorem follows_exchange (hl : l.Pairwise (· < ·)) (hx : x ∈ l) (r : R) :
    Follows x (pairs v l) (exchange x (v x) g l r)
      (l.foldl (fun r i => if i = x then r else g r i (v i)) r) := by
  induction l generalizing r with
  | nil => cases hx
  | cons a l ih =>
    obtain ⟨ha, hl⟩ := List.pairwise_cons.1 hl
    by_cases hxa : x = a
    · subst hxa
      have hnot : x ∉ l := fun hm => lt_irrefl x (ha x hm)
      have hrest : Follows x (pairs v l) (.ret (l.foldl
          (fun r i => if i = x then r else g r i (v i)) r) : Prog N V R) _ :=
        follows_ret fun m hm => ⟨fun e => hnot (e ▸ (mem_pairs hm).1),
          fun e => hnot (e ▸ (mem_pairs hm).2)⟩
      have hfirst := (follows_first (v := v) (g := g) ha r).bind hrest
      simpa [exchange, pairs, Prog.bind_ret] using hfirst
    · have hxl : x ∈ l := (List.mem_cons.1 hx).resolve_left hxa
      have hax := ha x hxl
      have hblock := follows_block (a := a) (v := v) (hl.imp fun h => h.ne) hxl hax.ne
        (k := fun w => exchange x (v x) g l (g r a w)) (ih hl hxl (g r a (v a)))
      rw [exchange_cons hax]
      simpa [pairs, hax.ne] using hblock

/-- Everybody sends to everybody else. -/
theorem sendsTo_exchange {i : N} (hi : i ∈ l) (hix : i ≠ x) (w : V) (r : R) :
    (exchange x w g l r).SendsTo i := by
  induction l generalizing r with
  | nil => cases hi
  | cons a l ih =>
    rw [exchange, List.foldlM_cons]
    rcases List.mem_cons.1 hi with rfl | hi
    · refine Prog.SendsTo.bind ?_ _
      rw [if_neg hix]
      refine Prog.SendsTo.bind ?_ _
      unfold meet
      split_ifs
      · exact Or.inl rfl
      · exact fun _ => Or.inl rfl
    · exact Prog.sendsTo_bind_of _ fun r => ih hi r

end Exchange

/-! ### Sending a list of values -/

section Emit

variable {N V R : Type}

/-- Send the values one after the other. -/
def emit (i : N) (vs : List V) : Prog N V Unit := vs.forM (.put i)

@[simp] theorem emit_nil (i : N) : emit i ([] : List V) = .ret () := rfl

@[simp] theorem emit_cons (i : N) (v : V) (vs : List V) :
    emit i (v :: vs) = .send i v (emit i vs) := rfl

theorem emit_bind_emit (i : N) (vs ws : List V) :
    (do emit i vs; emit i ws) = emit i (vs ++ ws) := by
  induction vs with
  | nil => rfl
  | cons v vs ih => exact congrArg (Prog.send i v) ih

theorem forM_put {α : Type} (i : N) (f : α → V) (l : List α) :
    (l.forM fun a => Prog.put i (f a)) = emit i (l.map f) := by
  induction l with
  | nil => rfl
  | cons a l ih => exact congrArg (Prog.send i (f a)) ih

theorem forM_emit {α : Type} (i : N) (f : α → List V) (l : List α) :
    (l.forM fun a => emit i (f a)) = emit i (l.flatMap f) := by
  induction l with
  | nil => rfl
  | cons a l ih =>
    rw [List.flatMap_cons, ← emit_bind_emit, ← ih]
    rfl

/-- A node that only sends follows every schedule that has its messages in this order. -/
theorem follows_emit [DecidableEq N] {x i : N} {σ : List (Msg N V)} {vs : List V} (hi : i ≠ x)
    (hdst : ∀ m ∈ σ, m.dst ≠ x)
    (hσ : σ.filter (fun m => decide (m.src = x)) = vs.map fun v => ⟨x, i, v⟩) (r : R) :
    Follows x σ (emit i vs >>= fun _ => .ret r) r := by
  induction σ generalizing vs with
  | nil =>
    obtain rfl : vs = [] := by simpa using hσ.symm
    rfl
  | cons m σ ih =>
    have ih := fun vs => @ih vs fun m' hm' => hdst m' (by simp [hm'])
    by_cases hm : m.src = x
    · rw [List.filter_cons_of_pos (by simpa using hm)] at hσ
      cases vs with
      | nil => cases hσ
      | cons v vs =>
        obtain ⟨rfl, htl⟩ := List.cons.inj hσ
        exact follows_src hi (ih vs htl)
    · rw [List.filter_cons_of_neg (by simpa using hm)] at hσ
      exact (follows_other hm (hdst m (by simp))).2 (ih vs hσ)

/-- The messages of one node among those of several. -/
theorem filter_flatMap_src [DecidableEq N] {x i : N} {l : List N} (f : N → List V) (hl : l.Nodup)
    (hx : x ∈ l) :
    (l.flatMap fun y => (f y).map fun v => Msg.mk y i v).filter (fun m => decide (m.src = x)) =
      (f x).map fun v => ⟨x, i, v⟩ := by
  have hother : ∀ l' : List N, x ∉ l' →
      (l'.flatMap fun y => (f y).map fun v => Msg.mk y i v).filter
        (fun m => decide (m.src = x)) = [] := by
    intro l' hx'
    simp only [List.filter_eq_nil_iff, List.mem_flatMap, List.mem_map, decide_eq_true_eq]
    rintro m ⟨y, hy, v, -, rfl⟩ rfl
    exact hx' hy
  obtain ⟨l₁, l₂, rfl⟩ := List.append_of_mem hx
  obtain ⟨-, hl₂, hdisj⟩ := List.nodup_append.1 hl
  rw [List.flatMap_append, List.flatMap_cons, List.filter_append, List.filter_append,
    hother l₁ fun h => hdisj x h x (by simp) rfl, hother l₂ (List.nodup_cons.1 hl₂).1,
    List.nil_append, List.append_nil, List.filter_eq_self]
  simp

end Emit

/-! ### Broadcasts -/

section Broadcast

variable {N V R : Type}

/-- The messages when every node of `as` sends its value to all nodes of `bs`. -/
def broadcast (v : N → V) (as bs : List N) : List (Msg N V) :=
  as.flatMap fun a => bs.map fun b => ⟨a, b, v a⟩

theorem mem_broadcast {v : N → V} {as bs : List N} {m : Msg N V} (hm : m ∈ broadcast v as bs) :
    m.src ∈ as ∧ m.dst ∈ bs := by
  obtain ⟨a, ha, hm⟩ := List.mem_flatMap.1 hm
  obtain ⟨b, hb, rfl⟩ := List.mem_map.1 hm
  exact ⟨ha, hb⟩

variable [DecidableEq N] {x : N} {v : N → V} {as bs : List N} {σ τ : List (Msg N V)} {p : Prog N V R}
  {r : R}

/-- Messages between other nodes may follow. -/
theorem Follows.append_other (h : Follows x σ p r) (hτ : ∀ m ∈ τ, m.src ≠ x ∧ m.dst ≠ x) :
    Follows x (σ ++ τ) p r := by
  have := h.bind (follows_ret (r := r) hτ)
  rwa [Prog.bind_ret] at this

/-- A program that returns a function of what another one returns. -/
theorem Follows.map {S : Type} (h : Follows x σ p r) (g : R → S) :
    Follows x σ (p >>= fun a => .ret (g a)) (g r) := by
  have hret : Follows x [] (.ret (g r) : Prog N V S) (g r) := rfl
  have := h.bind (f := fun a => .ret (g a)) hret
  rwa [List.append_nil] at this

/-- A sender goes through the receivers. -/
theorem follows_broadcast_send (has : as.Nodup) (hx : x ∈ as) (hxb : x ∉ bs) :
    Follows x (broadcast v as bs) (bs.forM fun b => .put b (v x)) () := by
  obtain ⟨l₁, l₂, rfl⟩ := List.append_of_mem hx
  obtain ⟨-, hl₂, hdisj⟩ := List.nodup_append.1 has
  have hfree : ∀ l : List N, x ∉ l → ∀ m ∈ broadcast v l bs, m.src ≠ x ∧ m.dst ≠ x := fun l hl m hm =>
    ⟨fun e => hl (e ▸ (mem_broadcast hm).1), fun e => hxb (e ▸ (mem_broadcast hm).2)⟩
  have hown : Follows x (bs.flatMap fun b => [⟨x, b, v x⟩])
      (bs.forM fun b => (.put b (v x) : Prog N V Unit)) () :=
    follows_forM fun b hb => follows_src (fun e => hxb (e ▸ hb)) rfl
  rw [← List.map_eq_flatMap] at hown
  rw [broadcast, List.flatMap_append, List.flatMap_cons]
  refine (follows_append_other (hfree l₁ fun h => hdisj x h x (by simp) rfl)).2 ?_
  exact hown.append_other (hfree l₂ (List.nodup_cons.1 hl₂).1)

/-- A receiver goes through the senders and folds what it gets. -/
theorem follows_broadcast_recv (hbs : bs.Nodup) (hx : x ∈ bs) (hxa : x ∉ as) (g : R → V → R) (r : R) :
    Follows x (broadcast v as bs) (as.foldlM (fun r a => do
      let w ← .get a
      pure (g r w)) r) (as.foldl (fun r a => g r (v a)) r) := by
  refine follows_foldlM r fun r a ha => ?_
  have hax : a ≠ x := fun e => hxa (e ▸ ha)
  obtain ⟨l₁, l₂, rfl⟩ := List.append_of_mem hx
  obtain ⟨-, hl₂, hdisj⟩ := List.nodup_append.1 hbs
  have hfree : ∀ l : List N, x ∉ l → ∀ m ∈ l.map fun b => Msg.mk a b (v a), m.src ≠ x ∧ m.dst ≠ x := by
    intro l hl m hm
    obtain ⟨b, hb, rfl⟩ := List.mem_map.1 hm
    exact ⟨hax, fun e => hl (e ▸ hb)⟩
  rw [List.map_append, List.map_cons]
  refine (follows_append_other (hfree l₁ fun h => hdisj x h x (by simp) rfl)).2 ?_
  have hget : Follows x [⟨a, x, v a⟩] (do
      let w ← .get a
      pure (g r w) : Prog N V R) (g r (v a)) := follows_dst hax rfl
  exact hget.append_other (hfree l₂ (List.nodup_cons.1 hl₂).1)

end Broadcast

end Rendezvous
