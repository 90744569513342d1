import Farlock.Bootstrap.Steps

/-!
# The bootstrap never gets stuck and wires the pools correctly
-/

namespace Farlock

namespace Bootstrap

open Function

variable {N : ℕ} {S : Setup N} {s : State N} {ph : Fin N → Fin N → Phase}
  {log : Fin N → List (Fin N × ℕ)}

/-! ### The listener's map -/

theorem Wired.entries_eq (h : Wired S s ph log) {b : Fin N} (hb : s.main b ≠ .done)
    (hall : ∀ a, a < b → (ph a b).served.length = S.T) :
    {k | s.listenerClients b k ≠ none} = {k : UInt32 | k.toNat < b.val * S.T} := by
  ext k
  simp only [Set.mem_ofPred_eq]
  constructor
  · intro hk
    by_contra hle
    exact hk (h.keys b hb k (Nat.le_of_not_lt hle))
  · intro hk
    have hpos : 0 < S.T := S.localPools_pos
    have hdiv : k.toNat / S.T < b.val := Nat.div_lt_of_lt_mul (by rwa [Nat.mul_comm])
    have hmod := Nat.mod_lt k.toNat hpos
    let a : Fin N := ⟨k.toNat / S.T, hdiv.trans b.isLt⟩
    have hab : a < b := hdiv
    have hkey : S.id a (k.toNat % S.T) = k := by
      apply UInt32.toNat_inj.1
      rw [S.id_toNat a hmod]
      exact Nat.div_add_mod' k.toNat S.T
    rw [← hkey, (h.pair a b hab).listenerClients hb _ hmod]
    have hlt : k.toNat % S.T < (ph a b).served.length := by rwa [hall a hab]
    simp [List.getElem?_eq_getElem hlt]

/-- A listener that is not busy and has all its clients has counted them. -/
theorem Wired.count_of_complete (h : Wired S s ph log) {b : Fin N} (hb : s.main b ≠ .done)
    (hbusy : (s.listener b).busy = false) (hall : ∀ a, a < b → (ph a b).served.length = S.T) :
    s.connectedClients b = S.expectedClients b := by
  have hcount := h.counter b hb
  rw [h.entries_eq hb hall, ncard_lt _ (S.mul_lt b).le, hbusy, if_neg Bool.false_ne_true,
    Int32.add_zero] at hcount
  rw [hcount, S.expectedClients_eq]

/-! ### Progress -/

/-- The listener can go on, or it waits in `select`, or it has returned. -/
theorem Wired.listener_progress (h : Wired S s ph log) {b : Fin N} (hstart : s.main b ≠ .start) :
    (∃ s', Step S s s') ∨ s.listener b = .returned ∨
      s.listener b = .check ∧ s.connectedClients b ≠ S.expectedClients b ∧
        s.backlog b = ∅ ∧ s.readable b = ∅ := by
  cases hl : s.listener b with
  | off => exact absurd ((h.off b).1 hl) hstart
  | check =>
    by_cases hc : s.connectedClients b = S.expectedClients b
    · exact Or.inl ⟨_, .finish hl hc⟩
    · by_cases hb : (s.backlog b).Nonempty
      · exact Or.inl ⟨_, .selectListener hl hc hb⟩
      · by_cases hr : (s.readable b).Nonempty
        · exact Or.inl ⟨_, .selectClients hl hc hb hr⟩
        · exact Or.inr (Or.inr ⟨rfl, hc, Finset.not_nonempty_iff_eq_empty.1 hb,
            Finset.not_nonempty_iff_eq_empty.1 hr⟩)
  | accept ready =>
    obtain ⟨a, ha⟩ := h.accepting b ready hl
    exact Or.inl ⟨_, .accept hl ha⟩
  | scan ready =>
    rcases ready.eq_empty_or_nonempty with rfl | ⟨a, ha⟩
    · exact Or.inl ⟨_, .rescan hl⟩
    · have hrd := h.ready b a (by rw [hl]; exact ha)
      cases hreq : s.requests a b with
      | nil => exact Or.inl ⟨_, .hangUp hl ha hreq (hrd.resolve_left fun hne => hne hreq)⟩
      | cons ctx rest => exact Or.inl ⟨_, .handle hl ha hreq⟩
  | reply ready a ctx => exact Or.inl ⟨_, .reply hl⟩
  | count ready => exact Or.inl ⟨_, .count hl⟩
  | returned => exact Or.inr (Or.inl rfl)

/-- A main thread can go on, or it has made all its connections. -/
theorem Wired.main_progress (h : Wired S s ph log) (hstart : ∀ b, s.main b ≠ .start) (a : Fin N) :
    (∃ s', Step S s s') ∨ s.main a = .wait ∨ s.main a = .done := by
  have hmain := h.main a
  cases hm : s.main a with
  | start => exact absurd hm (hstart a)
  | connect b j =>
    rw [hm] at hmain
    obtain ⟨hat, hj, hlen, hidle⟩ := hmain
    cases hs : s.connectedServers a (S.ip b) with
    | some fd => exact Or.inl ⟨_, .cached hm hs⟩
    | none =>
      rcases h.listener_progress (hstart b) with hstep | hret | ⟨hl, -⟩
      · exact Or.inl hstep
      · have := h.complete b hret a hat.1
        rw [Phase.served_of_idle hidle] at this
        omega
      · exact Or.inl ⟨_, .dial hm hs (by rw [hl]; rfl)⟩
  | request b j fd => exact Or.inl ⟨_, .request hm⟩
  | receive b j fd q =>
    rw [hm] at hmain
    obtain ⟨hat, hj, hlen, rfl, hst⟩ := hmain
    have hp := h.pair a fd hat.1
    rcases hst with hst | ⟨q', hst | hst⟩
    · -- the request is on its way, and the listener will see it
      have hreq : s.requests a fd ≠ [] := by
        rw [hp.requests, hst]
        simp
      have hsock := hp.socket (Or.inl fun he => by rw [he] at hst; cases hst)
      rcases h.listener_progress (hstart fd) with hstep | hret | ⟨hl, -, hb, hr⟩
      · exact Or.inl hstep
      · have := h.complete fd hret a hat.1
        simp only [Phase.served, hst] at this
        omega
      · rcases hsock with hin | hin | hd
        · simp [hb] at hin
        · have : a ∈ s.readable fd := Finset.mem_filter.2 ⟨hin, Or.inl hreq⟩
          simp [hr] at this
        · simp [hm] at hd
    · obtain ⟨ready, hl⟩ := hp.reply q q' hst
      exact Or.inl ⟨_, .reply hl⟩
    · have hans := hp.answers
      rw [hst] at hans
      exact Or.inl ⟨_, .receive hm hans⟩
  | wait => exact Or.inr (Or.inl rfl)
  | build =>
    rcases (h.poolsLe a).eq_or_lt with hi | hi
    · exact Or.inl ⟨_, .clear hm hi⟩
    · exact Or.inl ⟨_, .build hm hi⟩
  | done => exact Or.inr (Or.inr rfl)

/-- No state is stuck before all nodes are done. -/
theorem Wired.progress (h : Wired S s ph log) :
    (∀ a, s.main a = .done) ∨ ∃ s', Step S s s' := by
  by_contra hno
  obtain ⟨hnd, hstuck⟩ := not_or.1 hno
  have hstart : ∀ b, s.main b ≠ .start := fun b hb => hstuck ⟨_, .start hb⟩
  have hmain := fun a => (h.main_progress hstart a).resolve_left hstuck
  -- all connections are made, so that the listener of a node that waits has all its clients
  obtain ⟨b, hb⟩ := not_forall.1 hnd
  have hwait := (hmain b).resolve_right hb
  have hfull : ∀ a, a < b → (ph a b).served.length = S.T := by
    intro a hab
    have hw := h.main a
    have hF : (ph a b).Full S.T := by
      rcases hmain a with he | he
      · rw [he] at hw
        exact hw b hab
      · rw [he] at hw
        exact hw b hab
    rw [Phase.served_of_idle hF.2, hF.1]
  rcases (h.listener_progress (hstart b)).resolve_left hstuck with hret | ⟨hl, hc, -⟩
  · exact hstuck ⟨_, .wait hwait hret⟩
  · exact hc (h.count_of_complete hb (by rw [hl]; rfl) hfull)

/-! ### The target maps -/

/-- The entry of node `b` in the target map of pool `i` of node `a`. -/
def State.entry (s : State N) (a b : Fin N) (i : ℕ) : Option TargetContext :=
  ((s.pools a)[i]?.bind fun m => m[b.val]?).join

/-- The queue pair end `t` was told to talk to the end `t'` of node `b`. -/
structure Setup.Told (S : Setup N) (t : TargetContext) (b : Fin N) (t' : TargetContext) : Prop where
  qpNum : t.setup.rtr.destQpNum = S.qpNum b t'.qp
  rkey : t.rkey = S.rkey b
  address : t.address = S.address b
  lid : t.setup.rtr.dlid = (S.endpoint b).lid
  gid : t.setup.rtr.grh.map GlobalRoute.dgid = some (S.endpoint b).gid

theorem told_connectQp (q q' : ℕ) (a b : Fin N) (id : UInt32) {t' : TargetContext} (h : t'.qp = q') :
    S.Told (connectQp q (S.context b q' id) (S.endpoint a).gidIndex (S.endpoint a).ibPort) b t' := by
  subst h
  unfold connectQp modifyQpToRtr
  rw [if_pos (S.gidIndex_nonneg a)]
  exact ⟨rfl, rfl, rfl, rfl, rfl⟩

theorem poolEntries_length (a : Fin N) (i q : ℕ) : (poolEntries S ph a i q).length = N := by
  have := a.isLt
  simp only [poolEntries, List.length_append, List.length_map, List.length_take, List.length_drop,
    List.length_finRange, List.length_singleton]
  omega

theorem poolEntries_below {a b : Fin N} (hb : b < a) (i q : ℕ) :
    (poolEntries S ph a i q)[b.val]? = some (((ph b a).served[i]?).map fun e =>
      (S.endpoint a).accept e.2 (S.context b e.1 (S.id b i))) := by
  have hlt : b.val < ((List.finRange N).take a.val).length := by
    rw [List.length_take, List.length_finRange]
    omega
  unfold poolEntries
  rw [List.append_assoc, List.getElem?_append_left (by rwa [List.length_map]), List.getElem?_map,
    List.getElem?_eq_getElem hlt, List.getElem_take, List.getElem_finRange]
  rfl

theorem poolEntries_self (a : Fin N) (i q : ℕ) :
    (poolEntries S ph a i q)[a.val]? = some (some (S.loopback a q)) := by
  have hlen : (((List.finRange N).take a.val).map fun x => ((ph x a).served[i]?).map fun e =>
      (S.endpoint a).accept e.2 (S.context x e.1 (S.id x i))).length = a.val := by
    rw [List.length_map, List.length_take, List.length_finRange]
    omega
  unfold poolEntries
  rw [List.append_assoc, List.getElem?_append_right hlen.le, hlen, Nat.sub_self]
  rfl

theorem poolEntries_above {a b : Fin N} (hb : a < b) (i q : ℕ) :
    (poolEntries S ph a i q)[b.val]? = some (((ph a b).ends[i]?).map fun e =>
      (S.endpoint a).connect e.1 (S.context b e.2 (S.id a i))) := by
  have hlen : ((((List.finRange N).take a.val).map fun x => ((ph x a).served[i]?).map fun e =>
      (S.endpoint a).accept e.2 (S.context x e.1 (S.id x i))) ++
        [some (S.loopback a q)]).length = a.val + 1 := by
    rw [List.length_append, List.length_map, List.length_take, List.length_finRange,
      List.length_singleton]
    omega
  have hidx : b.val - (a.val + 1) < ((List.finRange N).drop (a.val + 1)).length := by
    rw [List.length_drop, List.length_finRange]
    omega
  unfold poolEntries
  rw [List.getElem?_append_right (by rw [hlen]; exact hb), hlen, List.getElem?_map,
    List.getElem?_eq_getElem hidx, List.getElem_drop, List.getElem_finRange]
  have hbv : (⟨a.val + 1 + (b.val - (a.val + 1)), by omega⟩ : Fin N) = b := Fin.ext (by
    have := Fin.lt_def.1 hb
    simp only
    omega)
  simp only [Option.map_some, Fin.cast_mk, hbv]

section Done

variable (h : Wired S s ph log) (hd : ∀ a, s.main a = .done)
include h hd

theorem Wired.exists_pool (a : Fin N) {i : ℕ} (hi : i < S.T) :
    ∃ q, (s.pools a)[i]? = some (poolEntries S ph a i q) ∧ (log a)[q]? = some (a, i) := by
  have hlt : i < (s.pools a).length := by rwa [h.allPools a (hd a)]
  obtain ⟨q, hq, hm⟩ := h.pools a i _ (List.getElem?_eq_getElem hlt)
  exact ⟨q, by rw [List.getElem?_eq_getElem hlt, hm], hq⟩

theorem Wired.entry_self (a : Fin N) {i : ℕ} (hi : i < S.T) :
    ∃ q, s.entry a a i = some (S.loopback a q) ∧ (log a)[q]? = some (a, i) := by
  obtain ⟨q, hm, hq⟩ := h.exists_pool hd a hi
  refine ⟨q, ?_, hq⟩
  rw [State.entry, hm, Option.bind_some, poolEntries_self]
  rfl

theorem Wired.entry_pair {a b : Fin N} (hab : a < b) {i : ℕ} (hi : i < S.T) :
    ∃ q q', s.entry a b i = some ((S.endpoint a).connect q (S.context b q' (S.id a i))) ∧
      s.entry b a i = some ((S.endpoint b).accept q' (S.context a q (S.id a i))) ∧
      (log a)[q]? = some (b, i) ∧ (log b)[q']? = some (a, i) := by
  have hfull := h.main a
  rw [hd a] at hfull
  have hlt : i < (ph a b).ends.length := by rwa [(hfull b hab).1]
  have hends := List.getElem?_eq_getElem hlt
  have hserved := Phase.served_of_ends hends
  obtain ⟨qa, hma, -⟩ := h.exists_pool hd a hi
  obtain ⟨qb, hmb, -⟩ := h.exists_pool hd b hi
  refine ⟨(ph a b).ends[i].1, (ph a b).ends[i].2, ?_, ?_, (h.pair a b hab).logServed i _ hserved⟩
  · rw [State.entry, hma, Option.bind_some, poolEntries_above hab, hends]
    rfl
  · rw [State.entry, hmb, Option.bind_some, poolEntries_below hab, hserved]
    rfl

/-- The queue pair of an entry was created for it. -/
theorem Wired.log_entry {a b : Fin N} {i : ℕ} {t : TargetContext} (ht : s.entry a b i = some t) :
    (log a)[t.qp]? = some (b, i) := by
  have hi : i < S.T := by
    by_contra hn
    rw [State.entry, List.getElem?_eq_none (by rw [h.allPools a (hd a)]; omega)] at ht
    cases ht
  rcases lt_trichotomy a b with hab | rfl | hba
  · obtain ⟨q, q', he, -, hq, -⟩ := h.entry_pair hd hab hi
    rw [he] at ht
    obtain rfl := Option.some.inj ht
    exact hq
  · obtain ⟨q, he, hq⟩ := h.entry_self hd a hi
    rw [he] at ht
    obtain rfl := Option.some.inj ht
    exact hq
  · obtain ⟨q, q', -, he, -, hq⟩ := h.entry_pair hd hba hi
    rw [he] at ht
    obtain rfl := Option.some.inj ht
    exact hq

end Done

theorem Wired.length_log_le (h : Wired S s ph log) (a : Fin N) : (log a).length ≤ N * S.T := by
  have hsub : (log a).toFinset ⊆ Finset.univ ×ˢ Finset.range S.T := by
    rintro ⟨x, j⟩ hmem
    refine Finset.mem_product.2 ⟨Finset.mem_univ x, Finset.mem_range.2 ?_⟩
    rcases h.logged a x j (List.mem_toFinset.1 hmem) with ⟨hlt, hj⟩ | ⟨hlt, hj⟩ | ⟨-, hj⟩
    · exact hj.trans_le ((h.main a).created_le hlt)
    · exact hj.trans_le (h.served_le hlt)
    · exact hj.trans_le (h.poolsLe a)
  have hcard := Finset.card_le_card hsub
  rwa [List.toFinset_card_of_nodup (h.nodup a), Finset.card_product, Finset.card_univ,
    Fintype.card_fin, Finset.card_range] at hcard

/-- In every interleaving of `InitMemoryPool` on all nodes no state is stuck before all nodes are
done.  Until `ClearCache`, a listener that has no request half processed has counted the entries of
its map; when it returns these are its `T * node_id` clients.  At the end the entries of two nodes
for one pool are the two ends of one connection, the entry of a node for itself is a loopback, and
no queue pair is in two entries. -/
theorem pools_wired (S : Setup N) {tr : List Empty} {s : State N} (hr : (system S).Run tr s) :
    ((∀ a, s.main a = .done) ∨ ∃ s', (system S).step s none s') ∧
    (∀ b, s.main b ≠ .done → (s.listener b).busy = false →
      s.connectedClients b = Int32.ofNat (Set.ncard {k | s.listenerClients b k ≠ none})) ∧
    (∀ b, s.main b ≠ .done → s.listener b = .returned →
      Set.ncard {k | s.listenerClients b k ≠ none} = S.T * b.val) ∧
    ((∀ a, s.main a = .done) →
      (∀ a, (s.pools a).length = S.T ∧ ∀ m ∈ s.pools a, m.length = N) ∧
      (∀ a, ∀ i < S.T, ∃ t, s.entry a a i = some t ∧ S.Told t a t) ∧
      (∀ a b, a ≠ b → ∀ i < S.T, ∃ t t', s.entry a b i = some t ∧ s.entry b a i = some t' ∧
        S.Told t b t' ∧ S.Told t' a t) ∧
      ∀ a b b' i i' t t', s.entry a b i = some t → s.entry a b' i' = some t' →
        (b, i) ≠ (b', i') → t.qp ≠ t'.qp ∧ S.qpNum a t.qp ≠ S.qpNum a t'.qp) := by
  obtain ⟨ph, log, h⟩ := exists_wired hr
  refine ⟨h.progress, fun b hb hbusy => ?_, fun b hb hret => ?_, fun hd => ⟨fun a => ?_, ?_, ?_, ?_⟩⟩
  · have hcount := h.counter b hb
    rwa [hbusy, if_neg Bool.false_ne_true, Int32.add_zero] at hcount
  · rw [h.entries_eq hb (h.complete b hret), ncard_lt _ (S.mul_lt b).le, Nat.mul_comm]
  · refine ⟨h.allPools a (hd a), fun m hm => ?_⟩
    obtain ⟨i, hi, rfl⟩ := List.getElem_of_mem hm
    obtain ⟨q, -, hq⟩ := h.pools a i _ (List.getElem?_eq_getElem hi)
    rw [hq]
    exact poolEntries_length a i q
  · intro a i hi
    obtain ⟨q, he, -⟩ := h.entry_self hd a hi
    exact ⟨_, he, told_connectQp q q a a 0 rfl⟩
  · intro a b hab i hi
    rcases lt_or_gt_of_ne hab with hlt | hlt
    · obtain ⟨q, q', he, he', -⟩ := h.entry_pair hd hlt hi
      exact ⟨_, _, he, he', told_connectQp q q' a b _ rfl, told_connectQp q' q b a _ rfl⟩
    · obtain ⟨q, q', he, he', -⟩ := h.entry_pair hd hlt hi
      exact ⟨_, _, he', he, told_connectQp q' q a b _ rfl, told_connectQp q q' b a _ rfl⟩
  · intro a b b' i i' t t' ht ht' hne
    have hlog := h.log_entry hd ht
    have hlog' := h.log_entry hd ht'
    have hqp : t.qp ≠ t'.qp := fun e => by
      rw [e, hlog'] at hlog
      exact hne (Option.some.inj hlog).symm
    have hlt : ∀ {q : ℕ} {e : Fin N × ℕ}, (log a)[q]? = some e → q ∈ Set.Iio (N * S.T) :=
      fun he => (List.getElem?_eq_some_iff.1 he).1.trans_le (h.length_log_le a)
    exact ⟨hqp, fun e => hqp (S.qpNum_injOn a (hlt hlog) (hlt hlog') e)⟩

/-- Two nodes with one pool each. -/
def duo : Setup 2 where
  localPools := 1
  localPools_pos := by decide
  ip a := if a.val = 0 then "10.0.0.1" else "10.0.0.2"
  ip_injective := by decide
  address _ := 0
  rkey a := UInt32.ofNat a.val
  endpoint a := ⟨UInt16.ofNat a.val, 0, fun _ => 1, 1⟩
  gidIndex_nonneg _ := le_rfl
  qpNum _ k := UInt32.ofNat k
  qpNum_injOn a k hk l hl heq := by
    simp only [Set.mem_Iio] at hk hl
    have := congrArg UInt32.toNat heq
    simp only [UInt32.toNat_ofNat'] at this
    have h2 : 2 * (1 : UInt32).toNat = 2 := rfl
    omega

/-- Node 1 has taken the one client it expects, has built its pool and is done; node 0 has its answer
before it. -/
theorem duo_served : ∃ s, (system duo).Run [] s ∧
    (s.main 0 = .receive 1 0 1 0 ∧ s.answers 0 1 = [duo.context 1 0 0] ∧ s.listener 0 = .check ∧
      s.connectedClients 0 = 0 ∧ s.pools 0 = []) ∧
    s.main 1 = .done ∧ s.listener 1 = .returned ∧ s.connectedClients 1 = 1 ∧
    ∀ k, s.listenerClients 1 k = none := by
  have h0 : (system duo).Run [] (initial 2) := .start rfl
  have h1 := h0.next (e := none) (.start (a := 0) rfl)
  have h2 := h1.next (e := none) (.start (a := 1) rfl)
  have h3 := h2.next (e := none) (.dial (a := 0) (b := 1) rfl rfl rfl)
  have h4 := h3.next (e := none) (.request (a := 0) rfl)
  have h5 := h4.next (e := none) (.selectListener (b := 1) rfl (by decide) (by decide))
  have h6 := h5.next (e := none) (.accept (a := 0) (b := 1) rfl (by decide))
  have h7 := h6.next (e := none) (.rescan (b := 1) rfl)
  have h8 := h7.next (e := none) (.selectClients (b := 1) rfl (by decide) (by decide) (by decide))
  have h9 := h8.next (e := none) (.handle (a := 0) (b := 1) rfl (by decide) rfl)
  have h10 := h9.next (e := none) (.reply (b := 1) rfl)
  have h11 := h10.next (e := none) (.count (b := 1) rfl)
  have h12 := h11.next (e := none) (.rescan (b := 1) rfl)
  have h13 := h12.next (e := none) (.finish (b := 1) rfl (by decide))
  have h14 := h13.next (e := none) (.wait (a := 1) rfl rfl)
  have h15 := h14.next (e := none) (.build (a := 1) rfl (by decide))
  have h16 := h15.next (e := none) (.clear (a := 1) rfl rfl)
  exact ⟨_, h16, ⟨rfl, rfl, rfl, rfl, rfl⟩, rfl, rfl, rfl, fun _ => rfl⟩

/-- Both nodes come to the end, and their pools have the two ends of one connection. -/
theorem pools_wired_duo : ∃ s, (system duo).Run [] s ∧ (∀ a, s.main a = .done) ∧
    ∃ t t', s.entry 0 1 0 = some t ∧ s.entry 1 0 0 = some t' ∧ duo.Told t 1 t' ∧ duo.Told t' 0 t := by
  obtain ⟨s, h0, ⟨hmain, hans, hlis, hcount, hpools⟩, hdone, -⟩ := duo_served
  have h1 := h0.next (e := none) (.receive (a := 0) hmain hans)
  have h2 := h1.next (e := none) (.finish (b := 0) hlis hcount)
  have h3 := h2.next (e := none) (.wait (a := 0) rfl rfl)
  have hlt : (s.pools 0).length < duo.T := by
    rw [hpools]
    decide
  have h4 := h3.next (e := none) (.build (a := 0) rfl hlt)
  have hlen : ∀ m, (Function.update s.pools 0 (s.pools 0 ++ [m]) 0).length = duo.T := by
    intro m
    rw [hpools, Function.update_self]
    rfl
  have h5 := h4.next (e := none) (.clear (a := 0) rfl (hlen _))
  obtain ⟨-, -, -, hend⟩ := pools_wired duo h5
  have hall : ∀ a : Fin 2, Function.update (Function.update (Function.update s.main 0 (duo.next 1 0))
      0 .build) 0 .done a = .done := by
    intro a
    fin_cases a
    · rfl
    · exact hdone
  exact ⟨_, h5, hall, (hend hall).2.2.1 0 1 (by decide) 0 (by decide)⟩

/-- The map of node 1 is empty again, but the counter stays. -/
theorem cache_cleared : ∃ tr s, (system duo).Run tr s ∧ (s.listener 1).busy = false ∧
    s.connectedClients 1 ≠ Int32.ofNat (Set.ncard {k | s.listenerClients 1 k ≠ none}) := by
  obtain ⟨s, hr, -, -, hlis, hcount, hclients⟩ := duo_served
  refine ⟨[], s, hr, by rw [hlis]; rfl, ?_⟩
  simp [hcount, hclients]

end Bootstrap

end Farlock
