import Farlock.Bootstrap.Model

/-!
# The wiring of the pools

For every pair of nodes `a < b` the pools of `a` are connected to those of `b` one after the other.
A `Phase` says how far the pair has come: the pairs of queue pairs that are connected, and the stage
of the next one. `Wired` relates a state to the phases of all pairs and to the log of what every
queue pair was created for.
-/

namespace Farlock

namespace Bootstrap

/-- The stage of one connection: nothing has been sent, the request with the queue pair `q` of the
client is under way, the server has inserted its queue pair `q'`, the answer is under way. -/
inductive Stage
  | idle
  | requested (q : ℕ)
  | entered (q q' : ℕ)
  | answered (q q' : ℕ)

/-- How far a pair of nodes has come. -/
structure Phase where
  ends : List (ℕ × ℕ)
  stage : Stage

/-- The queue pairs that the server has connected. -/
def Phase.served (p : Phase) : List (ℕ × ℕ) :=
  match p.stage with
  | .entered q q' | .answered q q' => p.ends ++ [(q, q')]
  | _ => p.ends

/-- The number of queue pairs that the client has created. -/
def Phase.created (p : Phase) : ℕ :=
  match p.stage with
  | .idle => p.ends.length
  | _ => p.ends.length + 1

/-- Nothing has happened between the two nodes. -/
def Phase.empty : Phase := ⟨[], .idle⟩

/-- The pair is complete. -/
def Phase.Full (p : Phase) (T : ℕ) : Prop := p.ends.length = T ∧ p.stage = .idle

variable {N : ℕ} (S : Setup N)

/-- What the phase of the pair `a < b` says about the state. -/
structure PairWired (s : State N) (log : Fin N → List (Fin N × ℕ)) (a b : Fin N) (p : Phase) :
    Prop where
  requests : s.requests a b = match p.stage with
    | .requested q => [S.context a q (S.id a p.ends.length)]
    | _ => []
  answers : s.answers a b = match p.stage with
    | .answered _ q' => [S.context b q' (S.id a p.ends.length)]
    | _ => []
  clients : ∀ j < S.T, s.clients a (S.id b j) =
    (p.ends[j]?).map fun e => (S.endpoint a).connect e.1 (S.context b e.2 (S.id a j))
  listenerClients : s.main b ≠ .done → ∀ j < S.T, s.listenerClients b (S.id a j) =
    (p.served[j]?).map fun e => (S.endpoint b).accept e.2 (S.context a e.1 (S.id a j))
  servers : s.main a ≠ .done → s.connectedServers a (S.ip b) = if p.ends = [] then none else some b
  socket : p ≠ .empty ∨ (∃ j fd, s.main a = .request b j fd) →
    a ∈ s.backlog b ∨ a ∈ s.clientSockets b ∨ s.main a = .done
  reply : ∀ q q', p.stage = .entered q q' →
    ∃ ready, s.listener b = .reply ready a (S.context b q' (S.id a p.ends.length))
  logServed : ∀ (j : ℕ) (e : ℕ × ℕ), p.served[j]? = some e →
    (log a)[e.1]? = some (b, j) ∧ (log b)[e.2]? = some (a, j)
  logRequest : ∀ q : ℕ, p.stage = .requested q → (log a)[q]? = some (b, p.ends.length)

/-- What the main thread of node `a` knows about the phases of its pairs. -/
def MainWired (a : Fin N) (ph : Fin N → Phase) : Main N → Prop
  | .start => ∀ c, a < c → ph c = .empty
  | .connect b j => Around b ∧ j < S.T ∧ (ph b).ends.length = j ∧ (ph b).stage = .idle
  | .request b j fd => Around b ∧ j < S.T ∧ (ph b).ends.length = j ∧ (ph b).stage = .idle ∧ fd = b
  | .receive b j fd q => Around b ∧ j < S.T ∧ (ph b).ends.length = j ∧ fd = b ∧
      ((ph b).stage = .requested q ∨ ∃ q', (ph b).stage = .entered q q' ∨
        (ph b).stage = .answered q q')
  | .wait | .build | .done => ∀ c, a < c → (ph c).Full S.T
where
  /-- The node is at `b`: it has finished with the nodes before and not begun with those after. -/
  Around (b : Fin N) : Prop :=
    a < b ∧ (∀ c, a < c → c < b → (ph c).Full S.T) ∧ ∀ c, b < c → ph c = .empty

/-- The entries of the target map of pool `i` of node `a`. -/
def poolEntries (ph : Fin N → Fin N → Phase) (a : Fin N) (i q : ℕ) : List (Option TargetContext) :=
  ((List.finRange N).take a.val).map (fun x => ((ph x a).served[i]?).map fun e =>
      (S.endpoint a).accept e.2 (S.context x e.1 (S.id x i))) ++
    [some (S.loopback a q)] ++
    ((List.finRange N).drop (a.val + 1)).map fun x => ((ph a x).ends[i]?).map fun e =>
      (S.endpoint a).connect e.1 (S.context x e.2 (S.id a i))

/-- The sockets that the listener has still to visit. -/
def Listener.ready : Listener N → Finset (Fin N)
  | .accept ready | .scan ready | .reply ready _ _ | .count ready => ready
  | _ => ∅

/-- The state `s` is as the phases and the log say. -/
structure Wired (s : State N) (ph : Fin N → Fin N → Phase) (log : Fin N → List (Fin N × ℕ)) :
    Prop where
  main : ∀ a, MainWired S a (ph a) (s.main a)
  pair : ∀ a b, a < b → PairWired S s log a b (ph a b)
  outside : ∀ a b, ¬ a < b → s.requests a b = []
  ready : ∀ b, ∀ a ∈ (s.listener b).ready, s.requests a b ≠ [] ∨ s.main a = .done
  accepting : ∀ b ready, s.listener b = .accept ready → (s.backlog b).Nonempty
  replying : ∀ b ready a ctx, s.listener b = .reply ready a ctx →
    a < b ∧ ∃ q q', (ph a b).stage = .entered q q'
  off : ∀ b, s.listener b = .off ↔ s.main b = .start
  returned : ∀ b, s.main b = .build ∨ s.main b = .done → s.listener b = .returned
  complete : ∀ b, s.listener b = .returned → ∀ a, a < b → (ph a b).served.length = S.T
  keys : ∀ b, s.main b ≠ .done → ∀ k : UInt32, b.val * S.T ≤ k.toNat → s.listenerClients b k = none
  counter : ∀ b, s.main b ≠ .done → s.connectedClients b + (if (s.listener b).busy then 1 else 0) =
    Int32.ofNat (Set.ncard {k | s.listenerClients b k ≠ none})
  qps : ∀ a, s.qps a = (log a).length
  nodup : ∀ a, (log a).Nodup
  logged : ∀ a x j, (x, j) ∈ log a → (a < x ∧ j < (ph a x).created) ∨
    (x < a ∧ j < (ph x a).served.length) ∨ (x = a ∧ j < (s.pools a).length)
  pools : ∀ a i m, (s.pools a)[i]? = some m →
    ∃ q, (log a)[q]? = some (a, i) ∧ m = poolEntries S ph a i q
  noPools : ∀ a, s.main a ≠ .build → s.main a ≠ .done → s.pools a = []
  poolsLe : ∀ a, (s.pools a).length ≤ S.T
  allPools : ∀ a, s.main a = .done → (s.pools a).length = S.T

variable {S} {s s' : State N} {ph : Fin N → Fin N → Phase} {log : Fin N → List (Fin N × ℕ)}

/-! ### Phases -/

theorem Phase.served_of_idle {p : Phase} (h : p.stage = .idle) : p.served = p.ends := by
  simp [Phase.served, h]

theorem Phase.created_of_idle {p : Phase} (h : p.stage = .idle) : p.created = p.ends.length := by
  simp [Phase.created, h]

theorem Phase.ends_prefix (p : Phase) : ∃ l, p.served = p.ends ++ l := by
  unfold Phase.served
  split
  · exact ⟨_, rfl⟩
  · exact ⟨_, rfl⟩
  · exact ⟨[], by simp⟩

theorem Phase.served_length_le (p : Phase) : p.served.length ≤ p.created := by
  cases h : p.stage <;> simp [Phase.served, Phase.created, h]

theorem Phase.served_of_ends {p : Phase} {j : ℕ} {e : ℕ × ℕ} (h : p.ends[j]? = some e) :
    p.served[j]? = some e := by
  obtain ⟨l, hl⟩ := p.ends_prefix
  rw [hl, List.getElem?_append_left (List.getElem?_eq_some_iff.1 h).1, h]

/-! ### What the place of the main thread says about a pair -/

theorem MainWired.stage_cases {a b : Fin N} {φ : Fin N → Phase} {pc : Main N}
    (h : MainWired S a φ pc) (hab : a < b) :
    (φ b).stage = .idle ∧ (φ b).ends.length ≤ S.T ∨
      ∃ q, pc = .receive b (φ b).ends.length b q ∧ (φ b).ends.length < S.T ∧
        ((φ b).stage = .requested q ∨ ∃ q', (φ b).stage = .entered q q' ∨
          (φ b).stage = .answered q q') := by
  have hfull : (φ b).Full S.T → (φ b).stage = .idle ∧ (φ b).ends.length ≤ S.T :=
    fun h => ⟨h.2, h.1.le⟩
  have hempty : φ b = .empty → (φ b).stage = .idle ∧ (φ b).ends.length ≤ S.T := fun h => by
    rw [h]
    exact ⟨rfl, Nat.zero_le _⟩
  have haround : ∀ c, MainWired.Around S a φ c → c ≠ b →
      (φ b).stage = .idle ∧ (φ b).ends.length ≤ S.T := by
    intro c hc hne
    rcases lt_or_gt_of_ne hne with hlt | hlt
    · exact hempty (hc.2.2 b hlt)
    · exact hfull (hc.2.1 b hab hlt)
  cases pc with
  | start => exact Or.inl (hempty (h b hab))
  | connect c j =>
    by_cases hc : c = b
    · subst hc
      exact Or.inl ⟨h.2.2.2, h.2.2.1 ▸ h.2.1.le⟩
    · exact Or.inl (haround c h.1 hc)
  | request c j fd =>
    by_cases hc : c = b
    · subst hc
      exact Or.inl ⟨h.2.2.2.1, h.2.2.1 ▸ h.2.1.le⟩
    · exact Or.inl (haround c h.1 hc)
  | receive c j fd q =>
    by_cases hc : c = b
    · subst hc
      obtain ⟨-, hj, rfl, rfl, hst⟩ := h
      exact Or.inr ⟨q, rfl, hj, hst⟩
    · exact Or.inl (haround c h.1 hc)
  | wait => exact Or.inl (hfull (h b hab))
  | build => exact Or.inl (hfull (h b hab))
  | done => exact Or.inl (hfull (h b hab))

theorem MainWired.created_le {a b : Fin N} {φ : Fin N → Phase} {pc : Main N}
    (h : MainWired S a φ pc) (hab : a < b) : (φ b).created ≤ S.T := by
  rcases h.stage_cases hab with ⟨hst, hle⟩ | ⟨q, -, hlt, hst⟩
  · rwa [Phase.created_of_idle hst]
  · rcases hst with hst | ⟨q', hst | hst⟩ <;> simp only [Phase.created, hst] <;> omega

/-- The relation of a pair depends only on the state of that pair. -/
theorem PairWired.frame {a b : Fin N} {p : Phase} (h : PairWired S s log a b p)
    (hreq : s'.requests a b = s.requests a b) (hans : s'.answers a b = s.answers a b)
    (hcl : ∀ j < S.T, s'.clients a (S.id b j) = s.clients a (S.id b j))
    (hlc : s'.main b ≠ .done → s.main b ≠ .done ∧
      ∀ j < S.T, s'.listenerClients b (S.id a j) = s.listenerClients b (S.id a j))
    (hsv : s'.main a ≠ .done → s.main a ≠ .done ∧
      s'.connectedServers a (S.ip b) = s.connectedServers a (S.ip b))
    (hsock : p ≠ .empty ∨ (∃ j fd, s'.main a = .request b j fd) →
      a ∈ s'.backlog b ∨ a ∈ s'.clientSockets b ∨ s'.main a = .done)
    (hrep : ∀ ready ctx, s.listener b = .reply ready a ctx → s'.listener b = .reply ready a ctx) :
    PairWired S s' log a b p where
  requests := hreq.trans h.requests
  answers := hans.trans h.answers
  clients j hj := (hcl j hj).trans (h.clients j hj)
  listenerClients hb j hj := ((hlc hb).2 j hj).trans (h.listenerClients (hlc hb).1 j hj)
  servers ha := (hsv ha).2.trans (h.servers (hsv ha).1)
  socket := hsock
  reply q q' hst := (h.reply q q' hst).imp fun _ hr => hrep _ _ hr
  logServed := h.logServed
  logRequest := h.logRequest

end Bootstrap

end Farlock
