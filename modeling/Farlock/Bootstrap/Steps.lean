import Farlock.Bootstrap.Wiring

/-!
# Every step keeps the wiring

Most steps leave the phases as they are.  A request, its insertion by the listener, the answer and
its receipt move one pair to its next stage.
-/

namespace Farlock

namespace Bootstrap

open Function

variable {N : ℕ} {S : Setup N} {s s' : State N} {ph : Fin N → Fin N → Phase}
  {log : Fin N → List (Fin N × ℕ)}

/-! ### Steps of the listener that leave the phases -/

/-- A step of the listener of `b` outside the processing of a request. -/
theorem Wired.listener_step (h : Wired S s ph log) {b : Fin N} {l : Listener N}
    {backlog clientSockets : Fin N → Finset (Fin N)} {connectedClients : Fin N → Int32}
    (hoff : s.listener b ≠ .off) (hoff' : l ≠ .off) (hret : s.listener b ≠ .returned)
    (hreply : ∀ ready a ctx, s.listener b ≠ .reply ready a ctx)
    (hreply' : ∀ ready a ctx, l ≠ .reply ready a ctx)
    (hcomplete : l = .returned → ∀ a, a < b → (ph a b).served.length = S.T)
    (hready : ∀ a ∈ l.ready, s.requests a b ≠ [] ∨ s.main a = .done)
    (hacc : ∀ ready, l = .accept ready → (backlog b).Nonempty)
    (hbacklog : ∀ x, x ≠ b → backlog x = s.backlog x)
    (hsocket : ∀ a x, a ∈ s.backlog x ∨ a ∈ s.clientSockets x ∨ s.main a = .done →
      a ∈ backlog x ∨ a ∈ clientSockets x ∨ s.main a = .done)
    (hcount : connectedClients b + (if l.busy then 1 else 0) =
      s.connectedClients b + if (s.listener b).busy then 1 else 0)
    (hcount' : ∀ x, x ≠ b → connectedClients x = s.connectedClients x) :
    Wired S { s with
      listener := update s.listener b l
      backlog := backlog
      clientSockets := clientSockets
      connectedClients := connectedClients } ph log where
  main := h.main
  pair x y hxy := by
    refine (h.pair x y hxy).frame rfl rfl (fun _ _ => rfl) (fun hd => ⟨hd, fun _ _ => rfl⟩)
      (fun hd => ⟨hd, rfl⟩) (fun hp => hsocket x y ((h.pair x y hxy).socket hp)) ?_
    intro ready ctx hy
    by_cases hyb : y = b
    · subst hyb
      exact absurd hy (hreply ready x ctx)
    · exact (update_of_ne hyb _ _).trans hy
  outside := h.outside
  ready x a ha := by
    by_cases hxb : x = b
    · subst hxb
      exact hready a (by simpa using ha)
    · exact h.ready x a (by simpa [hxb] using ha)
  accepting x ready hx := by
    by_cases hxb : x = b
    · subst hxb
      exact hacc ready (by simpa using hx)
    · change (backlog x).Nonempty
      rw [hbacklog x hxb]
      exact h.accepting x ready (by simpa [hxb] using hx)
  replying x ready a ctx hx := by
    by_cases hxb : x = b
    · subst hxb
      exact absurd (by simpa using hx) (hreply' ready a ctx)
    · exact h.replying x ready a ctx (by simpa [hxb] using hx)
  off x := by
    by_cases hxb : x = b
    · subst hxb
      have := h.off x
      simp only [update_self]
      tauto
    · simpa [hxb] using h.off x
  returned x hx := by
    by_cases hxb : x = b
    · subst hxb
      exact absurd (h.returned x hx) hret
    · simpa [hxb] using h.returned x hx
  complete x hx := by
    by_cases hxb : x = b
    · subst hxb
      exact hcomplete (by simpa using hx)
    · exact h.complete x (by simpa [hxb] using hx)
  keys := h.keys
  counter x hx := by
    by_cases hxb : x = b
    · subst hxb
      simp only [update_self]
      rw [hcount]
      exact h.counter x hx
    · simp only [update_of_ne hxb]
      rw [hcount' x hxb]
      exact h.counter x hx
  qps := h.qps
  nodup := h.nodup
  logged := h.logged
  pools := h.pools
  noPools := h.noPools
  poolsLe := h.poolsLe
  allPools := h.allPools

theorem Wired.served_le (h : Wired S s ph log) {a b : Fin N} (hab : a < b) :
    (ph a b).served.length ≤ S.T :=
  (Phase.served_length_le _).trans ((h.main a).created_le hab)

theorem ncard_lt (n : ℕ) (hn : n ≤ 2 ^ 32) : Set.ncard {k : UInt32 | k.toNat < n} = n := by
  have himage : {k : UInt32 | k.toNat < n} = UInt32.ofNat '' (Finset.range n : Set ℕ) := by
    ext k
    simp only [Set.mem_ofPred_eq, Set.mem_image, Finset.mem_coe, Finset.mem_range]
    constructor
    · exact fun hk => ⟨k.toNat, hk, UInt32.ofNat_toNat⟩
    · rintro ⟨i, hi, rfl⟩
      rwa [UInt32.toNat_ofNat', Nat.mod_eq_of_lt (hi.trans_le hn)]
  have hinj : Set.InjOn UInt32.ofNat (Finset.range n : Set ℕ) := by
    intro i hi j hj heq
    simp only [Finset.coe_range, Set.mem_Iio] at hi hj
    have := congrArg UInt32.toNat heq
    rwa [UInt32.toNat_ofNat', UInt32.toNat_ofNat', Nat.mod_eq_of_lt (hi.trans_le hn),
      Nat.mod_eq_of_lt (hj.trans_le hn)] at this
  rw [himage, hinj.ncard_image, Set.ncard_coe_finset, Finset.card_range]

/-- When the counter has come to the expected number, every pool of every client has its entry. -/
theorem Wired.complete_of_count (h : Wired S s ph log) {b : Fin N} (hb : s.main b ≠ .done)
    (hbusy : (s.listener b).busy = false) (hc : s.connectedClients b = S.expectedClients b) :
    ∀ a, a < b → (ph a b).served.length = S.T := by
  have hlt := S.mul_lt b
  have hsub : {k | s.listenerClients b k ≠ none} ⊆ {k : UInt32 | k.toNat < b.val * S.T} := by
    intro k hk
    by_contra hle
    exact hk (h.keys b hb k (Nat.le_of_not_lt hle))
  have hB := ncard_lt (b.val * S.T) hlt.le
  have hfin : {k : UInt32 | k.toNat < b.val * S.T}.Finite := by
    by_cases h0 : b.val * S.T = 0
    · simp [h0]
    · exact Set.finite_of_ncard_ne_zero (by rwa [hB])
  have hle := Set.ncard_le_ncard hsub hfin
  rw [hB] at hle
  have hcount := h.counter b hb
  rw [hbusy, if_neg Bool.false_ne_true, Int32.add_zero, hc, S.expectedClients_eq] at hcount
  have hcard := int32_ofNat_inj hlt (hle.trans_lt hlt) hcount
  have hall := Set.eq_of_subset_of_ncard_le hsub (by rw [hB, hcard]) hfin
  intro a hab
  have hpos := S.localPools_pos
  have hlast : S.T - 1 < S.T := Nat.sub_lt hpos one_pos
  have hmem : S.id a (S.T - 1) ∈ {k | s.listenerClients b k ≠ none} := by
    rw [hall]
    exact S.id_lt hab hlast
  have hentry := (h.pair a b hab).listenerClients hb _ hlast
  have hserved : (ph a b).served[S.T - 1]? ≠ none := by
    intro hnone
    rw [hnone] at hentry
    exact hmem hentry
  have := List.getElem?_eq_none_iff.not.1 hserved
  have := h.served_le hab
  omega

theorem Wired.main_ne_done (h : Wired S s ph log) {b : Fin N} (hret : s.listener b ≠ .returned) :
    s.main b ≠ .done :=
  fun hd => hret (h.returned b (Or.inr hd))

theorem of_mem_readable {b a : Fin N} (ha : a ∈ s.readable b) :
    s.requests a b ≠ [] ∨ s.main a = .done := by
  have hor := (Finset.mem_filter.1 ha).2
  refine hor.imp_right fun hd => ?_
  cases hm : s.main a with
  | done => rfl
  | _ => simp [hm, Main.isDone] at hd

theorem Wired.finish (h : Wired S s ph log) {b : Fin N} (hl : s.listener b = .check)
    (hc : s.connectedClients b = S.expectedClients b) :
    Wired S { s with listener := update s.listener b .returned } ph log := by
  have hdone := h.main_ne_done (b := b) (by simp [hl])
  refine h.listener_step (by simp [hl]) (by simp) (by simp [hl]) (by simp [hl]) (by simp)
    (fun _ => h.complete_of_count hdone (by simp [hl, Listener.busy]) hc) (by simp [Listener.ready])
    (by simp) (fun _ _ => rfl) (fun _ _ hs => hs) (by simp [hl, Listener.busy]) fun _ _ => rfl

theorem Wired.selectListener (h : Wired S s ph log) {b : Fin N} (hl : s.listener b = .check)
    (hb : (s.backlog b).Nonempty) :
    Wired S { s with listener := update s.listener b (.accept (s.readable b)) } ph log :=
  h.listener_step (by simp [hl]) (by simp) (by simp [hl]) (by simp [hl]) (by simp) (by simp)
    (fun _ ha => of_mem_readable ha) (fun _ _ => hb) (fun _ _ => rfl) (fun _ _ hs => hs)
    (by simp [hl, Listener.busy]) fun _ _ => rfl

theorem Wired.selectClients (h : Wired S s ph log) {b : Fin N} (hl : s.listener b = .check) :
    Wired S { s with listener := update s.listener b (.scan (s.readable b)) } ph log :=
  h.listener_step (by simp [hl]) (by simp) (by simp [hl]) (by simp [hl]) (by simp) (by simp)
    (fun _ ha => of_mem_readable ha) (by simp) (fun _ _ => rfl) (fun _ _ hs => hs)
    (by simp [hl, Listener.busy]) fun _ _ => rfl

theorem Wired.accept (h : Wired S s ph log) {a b : Fin N} {ready : Finset (Fin N)}
    (hl : s.listener b = .accept ready) :
    Wired S { s with
      listener := update s.listener b (.scan ready)
      backlog := update s.backlog b ((s.backlog b).erase a)
      clientSockets := update s.clientSockets b (insert a (s.clientSockets b)) } ph log := by
  have hready := h.ready b
  rw [hl] at hready
  refine h.listener_step (by simp [hl]) (by simp) (by simp [hl]) (by simp [hl]) (by simp) (by simp)
    hready (by simp) (fun x hx => update_of_ne hx _ _) (fun x y hs => ?_)
    (by simp [hl, Listener.busy]) fun _ _ => rfl
  by_cases hy : y = b
  · subst hy
    by_cases hx : x = a
    · subst hx
      simp
    · simpa [hx] using hs
  · simpa [hy] using hs

theorem Wired.hangUp (h : Wired S s ph log) {a b : Fin N} {ready : Finset (Fin N)}
    (hl : s.listener b = .scan ready) (hd : s.main a = .done) :
    Wired S { s with
      listener := update s.listener b (.scan (ready.erase a))
      clientSockets := update s.clientSockets b ((s.clientSockets b).erase a) } ph log := by
  have hready := h.ready b
  rw [hl] at hready
  refine h.listener_step (by simp [hl]) (by simp) (by simp [hl]) (by simp [hl]) (by simp) (by simp)
    (fun x hx => hready x (Finset.mem_of_mem_erase hx)) (by simp) (fun _ _ => rfl)
    (fun x y hs => ?_) (by simp [hl, Listener.busy]) fun _ _ => rfl
  by_cases hx : x = a
  · subst hx
    exact Or.inr (Or.inr hd)
  · by_cases hy : y = b
    · subst hy
      simpa [hx] using hs
    · simpa [hy] using hs

theorem Wired.count (h : Wired S s ph log) {b : Fin N} {ready : Finset (Fin N)}
    (hl : s.listener b = .count ready) :
    Wired S { s with
      listener := update s.listener b (.scan ready)
      connectedClients := update s.connectedClients b (s.connectedClients b + 1) } ph log := by
  have hready := h.ready b
  rw [hl] at hready
  exact h.listener_step (by simp [hl]) (by simp) (by simp [hl]) (by simp [hl]) (by simp) (by simp)
    hready (by simp) (fun _ _ => rfl) (fun _ _ hs => hs) (by simp [hl, Listener.busy])
    fun x hx => update_of_ne hx _ _

theorem Wired.rescan (h : Wired S s ph log) {b : Fin N} (hl : s.listener b = .scan ∅) :
    Wired S { s with listener := update s.listener b .check } ph log :=
  h.listener_step (by simp [hl]) (by simp) (by simp [hl]) (by simp [hl]) (by simp) (by simp)
    (by simp [Listener.ready]) (by simp) (fun _ _ => rfl) (fun _ _ hs => hs)
    (by simp [hl, Listener.busy]) fun _ _ => rfl

/-! ### Steps of the main thread that leave the phases -/

/-- A move of one main thread that is not to or from `m`. -/
theorem update_main_iff {a : Fin N} (pc m : Main N) (hold : s.main a ≠ m) (hnew : pc ≠ m)
    (x : Fin N) : update s.main a pc x = m ↔ s.main x = m := by
  by_cases hx : x = a
  · subst hx
    simp [hold, hnew]
  · simp [hx]

/-- A step of the main thread of `a` between `start` and the end. -/
theorem Wired.main_step (h : Wired S s ph log) {a : Fin N} {pc : Main N}
    {backlog : Fin N → Finset (Fin N)} (hpc : MainWired S a (ph a) pc)
    (hstart : s.main a ≠ .start) (hstart' : pc ≠ .start) (hbuild : s.main a ≠ .build)
    (hbuild' : pc = .build → s.listener a = .returned) (hdone : s.main a ≠ .done)
    (hdone' : pc ≠ .done) (hmono : ∀ x, s.backlog x ⊆ backlog x)
    (hreq : ∀ b j fd, pc = .request b j fd → a ∈ backlog b ∨ a ∈ s.clientSockets b) :
    Wired S { s with main := update s.main a pc, backlog := backlog } ph log := by
  have hdone_iff := update_main_iff pc .done hdone hdone'
  exact {
    main := fun x => by
      by_cases hx : x = a
      · subst hx
        simpa using hpc
      · simpa [hx] using h.main x
    pair := fun x y hxy => by
      have hp := h.pair x y hxy
      refine hp.frame rfl rfl (fun _ _ => rfl)
        (fun hd => ⟨mt (hdone_iff y).2 hd, fun _ _ => rfl⟩)
        (fun hd => ⟨mt (hdone_iff x).2 hd, rfl⟩) (fun hor => ?_) (fun _ _ hr => hr)
      by_cases hx : x = a
      · subst hx
        simp only [update_self] at hor ⊢
        rcases hor with hne | ⟨j, fd, hpc'⟩
        · rcases hp.socket (Or.inl hne) with hs | hs | hs
          · exact Or.inl (hmono y hs)
          · exact Or.inr (Or.inl hs)
          · exact absurd hs hdone
        · exact (hreq y j fd hpc').imp_right Or.inl
      · simp only [update_of_ne hx] at hor ⊢
        exact (hp.socket hor).imp_left fun hs => hmono y hs
    outside := h.outside
    ready := fun b x hx => (h.ready b x hx).imp_right (hdone_iff x).2
    accepting := fun b ready hb => (h.accepting b ready hb).mono (hmono b)
    replying := h.replying
    off := fun b => (h.off b).trans (update_main_iff pc .start hstart hstart' b).symm
    returned := fun b hb => by
      rcases hb with hb | hb
      · by_cases hba : b = a
        · subst hba
          exact hbuild' (by simpa using hb)
        · exact h.returned b (Or.inl (by simpa [hba] using hb))
      · exact h.returned b (Or.inr ((hdone_iff b).1 hb))
    complete := h.complete
    keys := fun b hb => h.keys b (mt (hdone_iff b).2 hb)
    counter := fun b hb => h.counter b (mt (hdone_iff b).2 hb)
    qps := h.qps
    nodup := h.nodup
    logged := h.logged
    pools := h.pools
    noPools := fun b hb hd => by
      refine h.noPools b (fun hm => hb ?_) (mt (hdone_iff b).2 hd)
      have hba : b ≠ a := fun e => hbuild (e ▸ hm)
      simpa [hba] using hm
    poolsLe := h.poolsLe
    allPools := fun b hb => h.allPools b ((hdone_iff b).1 hb) }

theorem Wired.cached (h : Wired S s ph log) {a b fd : Fin N} {j : ℕ} (hm : s.main a = .connect b j)
    (hs : s.connectedServers a (S.ip b) = some fd) :
    Wired S { s with main := update s.main a (.request b j fd) } ph log := by
  have hmain := h.main a
  rw [hm] at hmain
  have hp := h.pair a b hmain.1.1
  have hsv := hp.servers (by simp [hm])
  rw [hs] at hsv
  have hends : (ph a b).ends ≠ [] := fun he => by simp [he] at hsv
  obtain rfl : fd = b := by simpa [hends] using hsv
  have hne : ph a fd ≠ .empty := fun he => hends (by rw [he]; rfl)
  refine h.main_step ⟨hmain.1, hmain.2.1, hmain.2.2.1, hmain.2.2.2, rfl⟩ (by simp [hm]) (by simp)
    (by simp [hm]) (by simp) (by simp [hm]) (by simp) (fun _ => Finset.Subset.refl _) ?_
  intro b' j' fd' he
  obtain ⟨rfl, -, -⟩ := Main.request.inj he
  rcases hp.socket (Or.inl hne) with hb | hc | hd
  · exact Or.inl hb
  · exact Or.inr hc
  · simp [hm] at hd

theorem Wired.dial (h : Wired S s ph log) {a b : Fin N} {j : ℕ} (hm : s.main a = .connect b j) :
    Wired S { s with
      main := update s.main a (.request b j b)
      backlog := update s.backlog b (insert a (s.backlog b)) } ph log := by
  have hmain := h.main a
  rw [hm] at hmain
  refine h.main_step ⟨hmain.1, hmain.2.1, hmain.2.2.1, hmain.2.2.2, rfl⟩ (by simp [hm]) (by simp)
    (by simp [hm]) (by simp) (by simp [hm]) (by simp) (fun x => ?_) ?_
  · by_cases hx : x = b
    · subst hx
      simp
    · simp [hx]
  · intro b' j' fd' he
    obtain ⟨rfl, -, -⟩ := Main.request.inj he
    simp

theorem Wired.wait (h : Wired S s ph log) {a : Fin N} (hm : s.main a = .wait)
    (hl : s.listener a = .returned) :
    Wired S { s with main := update s.main a .build } ph log := by
  have hmain := h.main a
  rw [hm] at hmain
  exact h.main_step hmain (by simp [hm]) (by simp) (by simp [hm]) (fun _ => hl) (by simp [hm])
    (by simp) (fun _ => Finset.Subset.refl _) (by simp)

/-- The head of the loop over the nodes. -/
theorem mainWired_connectFrom {a : Fin N} {φ : Fin N → Phase} {i : ℕ} (hi : a.val < i)
    (hfull : ∀ c, a < c → c.val < i → (φ c).Full S.T) (hempty : ∀ c, i ≤ c.val → φ c = .empty) :
    MainWired S a φ (Setup.connectFrom i) := by
  unfold Setup.connectFrom
  split_ifs with hN
  · have hat := hempty ⟨i, hN⟩ le_rfl
    refine ⟨⟨hi, hfull, fun c hc => hempty c (Nat.le_of_lt hc)⟩, S.localPools_pos, ?_, ?_⟩
    · rw [hat]
      rfl
    · rw [hat]
      rfl
  · exact fun c hc => hfull c hc (by omega)

theorem connectFrom_cases (N i : ℕ) :
    (Setup.connectFrom i : Main N) = .wait ∨ ∃ b : Fin N, Setup.connectFrom i = .connect b 0 := by
  unfold Setup.connectFrom
  split_ifs with hN
  · exact Or.inr ⟨_, rfl⟩
  · exact Or.inl rfl

theorem Wired.start (h : Wired S s ph log) {a : Fin N} (hm : s.main a = .start) :
    Wired S { s with
      main := update s.main a (Setup.connectFrom (a.val + 1))
      listener := update s.listener a .check } ph log := by
  have hmain := h.main a
  rw [hm] at hmain
  have hoff := (h.off a).2 hm
  have hpc : MainWired S a (ph a) (Setup.connectFrom (a.val + 1)) :=
    mainWired_connectFrom (Nat.lt_succ_self _)
      (fun c hc hlt => absurd (Nat.lt_of_lt_of_le hlt (Fin.lt_def.1 hc)) (lt_irrefl _)) hmain
  have hcases := connectFrom_cases N (a.val + 1)
  have hne : ∀ pc : Main N, pc = .start ∨ pc = .build ∨ pc = .done ∨
      (∃ b j fd, pc = .request b j fd) → (Setup.connectFrom (a.val + 1) : Main N) ≠ pc := by
    intro pc hpc
    rcases hcases with he | ⟨b, he⟩ <;> rw [he] <;> rintro rfl <;> simp at hpc
  have hdone := update_main_iff (s := s) (a := a) (Setup.connectFrom (a.val + 1)) .done
    (by simp [hm]) (hne _ (by simp))
  have hbuild := update_main_iff (s := s) (a := a) (Setup.connectFrom (a.val + 1)) .build
    (by simp [hm]) (hne _ (by simp))
  exact {
    main := fun x => by
      by_cases hx : x = a
      · subst hx
        simpa using hpc
      · simpa [hx] using h.main x
    pair := fun x y hxy => by
      have hp := h.pair x y hxy
      refine hp.frame rfl rfl (fun _ _ => rfl) (fun hd => ⟨mt (hdone y).2 hd, fun _ _ => rfl⟩)
        (fun hd => ⟨mt (hdone x).2 hd, rfl⟩) (fun hor => ?_) (fun ready ctx hr => ?_)
      · by_cases hx : x = a
        · subst hx
          simp only [update_self] at hor ⊢
          rcases hor with hne' | ⟨j, fd, hpc'⟩
          · exact absurd (hmain y hxy) hne'
          · exact absurd hpc' (hne _ (by simp))
        · simpa [hx] using hp.socket (by simpa [hx] using hor)
      · by_cases hy : y = a
        · subst hy
          rw [hoff] at hr
          cases hr
        · simpa [hy] using hr
    outside := h.outside
    ready := fun b x hx => by
      by_cases hb : b = a
      · subst hb
        simp [Listener.ready] at hx
      · exact (h.ready b x (by simpa [hb] using hx)).imp_right (hdone x).2
    accepting := fun b ready hb => by
      by_cases hba : b = a
      · subst hba
        simp at hb
      · exact h.accepting b ready (by simpa [hba] using hb)
    replying := fun b ready x ctx hb => by
      by_cases hba : b = a
      · subst hba
        simp at hb
      · exact h.replying b ready x ctx (by simpa [hba] using hb)
    off := fun b => by
      by_cases hb : b = a
      · subst hb
        simpa using hne .start (by simp)
      · simpa [hb] using h.off b
    returned := fun b hb => by
      have hret := h.returned b (hb.imp (hbuild b).1 (hdone b).1)
      have hba : b ≠ a := fun e => by rw [e, hoff] at hret; cases hret
      simpa [hba] using hret
    complete := fun b hb => by
      by_cases hba : b = a
      · subst hba
        simp at hb
      · exact h.complete b (by simpa [hba] using hb)
    keys := fun b hb => h.keys b (mt (hdone b).2 hb)
    counter := fun b hb => by
      have hcount := h.counter b (mt (hdone b).2 hb)
      by_cases hba : b = a
      · subst hba
        simpa [hoff, Listener.busy] using hcount
      · simpa [hba] using hcount
    qps := h.qps
    nodup := h.nodup
    logged := h.logged
    pools := h.pools
    noPools := fun b hb hd => h.noPools b (mt (hbuild b).2 hb) (mt (hdone b).2 hd)
    poolsLe := h.poolsLe
    allPools := fun b hb => h.allPools b ((hdone b).1 hb) }

theorem Wired.clear (h : Wired S s ph log) {a : Fin N} (hm : s.main a = .build)
    (hi : (s.pools a).length = S.T) :
    Wired S { s with
      main := update s.main a .done
      listenerClients := update s.listenerClients a fun _ => none
      connectedServers := update s.connectedServers a fun _ => none } ph log := by
  have hmain := h.main a
  rw [hm] at hmain
  have hdone : ∀ x, s.main x = .done → update s.main a .done x = .done := fun x hx => by
    by_cases hxa : x = a
    · simp [hxa]
    · simpa [hxa] using hx
  exact {
    main := fun x => by
      by_cases hx : x = a
      · subst hx
        simp only [update_self]
        exact hmain
      · simpa [hx] using h.main x
    pair := fun x y hxy => by
      have hp := h.pair x y hxy
      refine hp.frame rfl rfl (fun _ _ => rfl) (fun hd => ?_) (fun hd => ?_) (fun hor => ?_)
        (fun _ _ hr => hr)
      · have hy : y ≠ a := fun e => hd (by simp [e])
        exact ⟨by simpa [hy] using hd, fun j _ => by simp [hy]⟩
      · have hx : x ≠ a := fun e => hd (by simp [e])
        exact ⟨by simpa [hx] using hd, by simp [hx]⟩
      · by_cases hx : x = a
        · simp [hx]
        · simpa [hx] using hp.socket (by simpa [hx] using hor)
    outside := h.outside
    ready := fun b x hx => (h.ready b x hx).imp_right (hdone x)
    accepting := h.accepting
    replying := h.replying
    off := fun b => by
      by_cases hb : b = a
      · subst hb
        have := h.off b
        rw [hm] at this
        simpa using this
      · simpa [hb] using h.off b
    returned := fun b hb => by
      by_cases hba : b = a
      · subst hba
        exact h.returned b (Or.inl hm)
      · exact h.returned b (by simpa [hba] using hb)
    complete := h.complete
    keys := fun b hb => by
      have hba : b ≠ a := fun e => hb (by simp [e])
      simpa [hba] using h.keys b (by simpa [hba] using hb)
    counter := fun b hb => by
      have hba : b ≠ a := fun e => hb (by simp [e])
      simpa [hba] using h.counter b (by simpa [hba] using hb)
    qps := h.qps
    nodup := h.nodup
    logged := h.logged
    pools := h.pools
    noPools := fun b hb hd => by
      have hba : b ≠ a := fun e => hd (by simp [e])
      exact h.noPools b (by simpa [hba] using hb) (by simpa [hba] using hd)
    poolsLe := h.poolsLe
    allPools := fun b hb => by
      by_cases hba : b = a
      · rwa [hba]
      · exact h.allPools b (by simpa [hba] using hb) }

/-! ### New queue pairs -/

theorem getElem?_append_of_some {α : Type} {l l' : List α} {q : ℕ} {e : α} (h : l[q]? = some e) :
    (l ++ l')[q]? = some e := by
  rw [List.getElem?_append_left (List.getElem?_eq_some_iff.1 h).1, h]

/-- The log of node `a` with one more queue pair. -/
def record (log : Fin N → List (Fin N × ℕ)) (a : Fin N) (e : Fin N × ℕ) :
    Fin N → List (Fin N × ℕ) :=
  update log a (log a ++ [e])

theorem record_mono {a x : Fin N} {e e' : Fin N × ℕ} {q : ℕ} (h : (log x)[q]? = some e') :
    (record log a e x)[q]? = some e' := by
  by_cases hx : x = a
  · subst hx
    simpa [record] using getElem?_append_of_some h
  · simpa [record, hx] using h

theorem record_self (a : Fin N) (e : Fin N × ℕ) :
    (record log a e a)[(log a).length]? = some e := by
  simp [record]

theorem mem_record {a x : Fin N} {e e' : Fin N × ℕ} :
    e' ∈ record log a e x ↔ e' ∈ log x ∨ x = a ∧ e' = e := by
  by_cases hx : x = a
  · subst hx
    simp [record]
  · simp [record, hx]

theorem record_length (a x : Fin N) (e : Fin N × ℕ) (hq : ∀ x, s.qps x = (log x).length) :
    update s.qps a (s.qps a + 1) x = (record log a e x).length := by
  by_cases hx : x = a
  · subst hx
    simp [record, hq]
  · simp [record, hx, hq]

theorem record_nodup {a : Fin N} {e : Fin N × ℕ} (hn : ∀ x, (log x).Nodup) (he : e ∉ log a)
    (x : Fin N) : (record log a e x).Nodup := by
  by_cases hx : x = a
  · subst hx
    simpa [record, List.nodup_append] using ⟨hn x, fun y j hy e' => he (e' ▸ hy)⟩
  · simpa [record, hx] using hn x

theorem PairWired.recorded {a b x : Fin N} {e : Fin N × ℕ} {p : Phase}
    (h : PairWired S s log a b p) : PairWired S s (record log x e) a b p :=
  { h with
    logServed := fun j e' hj =>
      ⟨record_mono (h.logServed j e' hj).1, record_mono (h.logServed j e' hj).2⟩
    logRequest := fun q hq => record_mono (h.logRequest q hq) }

theorem lt_of_mem_take {a x : Fin N} (h : x ∈ (List.finRange N).take a.val) : x < a := by
  obtain ⟨i, hi, rfl⟩ := List.mem_take_iff_getElem.1 h
  simp only [List.getElem_finRange]
  exact Fin.lt_def.2 (by simp at hi ⊢; omega)

theorem lt_of_mem_drop {a x : Fin N} (h : x ∈ (List.finRange N).drop (a.val + 1)) : a < x := by
  obtain ⟨i, hi, rfl⟩ := List.mem_drop_iff_getElem.1 h
  simp only [List.getElem_finRange]
  exact Fin.lt_def.2 (by simp; omega)

/-- The target map that a node builds is the one its phases give. -/
theorem Wired.targetMap_eq (h : Wired S s ph log) {a : Fin N} (hm : s.main a = .build) {i : ℕ}
    (hi : i < S.T) (q : ℕ) : S.targetMap s a i q = poolEntries S ph a i q := by
  have hbelow : ∀ x ∈ (List.finRange N).take a.val, s.listenerClients a (S.id x i) =
      ((ph x a).served[i]?).map fun e => (S.endpoint a).accept e.2 (S.context x e.1 (S.id x i)) :=
    fun x hx => (h.pair x a (lt_of_mem_take hx)).listenerClients (by simp [hm]) i hi
  have habove : ∀ x ∈ (List.finRange N).drop (a.val + 1), s.clients a (S.id x i) =
      ((ph a x).ends[i]?).map fun e => (S.endpoint a).connect e.1 (S.context x e.2 (S.id a i)) :=
    fun x hx => (h.pair a x (lt_of_mem_drop hx)).clients i hi
  unfold Setup.targetMap poolEntries
  rw [List.map_congr_left hbelow, List.map_congr_left habove]

theorem Wired.build (h : Wired S s ph log) {a : Fin N} (hm : s.main a = .build)
    (hi : (s.pools a).length < S.T) :
    Wired S { s with
      qps := update s.qps a (s.qps a + 1)
      pools := update s.pools a (s.pools a ++ [S.targetMap s a (s.pools a).length (s.qps a)]) }
      ph (record log a (a, (s.pools a).length)) := by
  have hnew : (a, (s.pools a).length) ∉ log a := by
    intro hmem
    rcases h.logged a a _ hmem with ⟨hlt, -⟩ | ⟨hlt, -⟩ | ⟨-, hlt⟩
    · exact lt_irrefl a hlt
    · exact lt_irrefl a hlt
    · exact lt_irrefl _ hlt
  exact { h with
    pair := fun x y hxy => (h.pair x y hxy).recorded.frame rfl rfl (fun _ _ => rfl)
      (fun hd => ⟨hd, fun _ _ => rfl⟩) (fun hd => ⟨hd, rfl⟩) (h.pair x y hxy).socket
      (fun _ _ hr => hr)
    qps := fun x => record_length a x _ h.qps
    nodup := record_nodup h.nodup hnew
    logged := fun x y j hmem => by
      rcases mem_record.1 hmem with hmem | ⟨rfl, he⟩
      · rcases h.logged x y j hmem with hc | hc | ⟨rfl, hj⟩
        · exact Or.inl hc
        · exact Or.inr (Or.inl hc)
        · refine Or.inr (Or.inr ⟨rfl, ?_⟩)
          by_cases hya : y = a
          · subst hya
            simp only [update_self, List.length_append, List.length_singleton]
            omega
          · simpa [hya] using hj
      · obtain ⟨rfl, rfl⟩ := Prod.mk.inj he
        exact Or.inr (Or.inr ⟨rfl, by simp⟩)
    pools := fun x i m hm' => by
      by_cases hx : x = a
      · subst hx
        simp only [update_self] at hm'
        rcases lt_or_ge i (s.pools x).length with hlt | hge
        · rw [List.getElem?_append_left hlt] at hm'
          obtain ⟨q, hq, rfl⟩ := h.pools x i m hm'
          exact ⟨q, record_mono hq, rfl⟩
        · have hlen := (List.getElem?_eq_some_iff.1 hm').1
          rw [List.length_append, List.length_singleton] at hlen
          obtain rfl : i = (s.pools x).length := by omega
          refine ⟨s.qps x, by rw [h.qps]; exact record_self _ _, ?_⟩
          rw [List.getElem?_concat_length] at hm'
          rw [← Option.some.inj hm', h.targetMap_eq hm hi]
      · obtain ⟨q, hq, rfl⟩ := h.pools x i m (by simpa [hx] using hm')
        exact ⟨q, record_mono hq, rfl⟩
    noPools := fun x hb hd => by
      have hx : x ≠ a := fun e => hb (by rw [e]; exact hm)
      simpa [hx] using h.noPools x hb hd
    poolsLe := fun x => by
      by_cases hx : x = a
      · subst hx
        simpa using hi
      · simpa [hx] using h.poolsLe x
    allPools := fun x hd => by
      have hx : x ≠ a := fun e => by
        rw [e] at hd
        exact absurd (hm.symm.trans hd) (by simp)
      simpa [hx] using h.allPools x hd }

/-! ### Steps of a pair -/

/-- The phases after a step of the pair `a`, `b`. -/
def setPhase (ph : Fin N → Fin N → Phase) (a b : Fin N) (p : Phase) : Fin N → Fin N → Phase :=
  update ph a (update (ph a) b p)

@[simp] theorem setPhase_self (a b : Fin N) (p : Phase) : setPhase ph a b p a b = p := by
  simp [setPhase]

theorem setPhase_of_ne {a b x y : Fin N} {p : Phase} (h : ¬ (x = a ∧ y = b)) :
    setPhase ph a b p x y = ph x y := by
  unfold setPhase
  by_cases hx : x = a
  · subst hx
    have hy : y ≠ b := fun e => h ⟨rfl, e⟩
    simp [hy]
  · simp [hx]

/-- A step of a pair, looked at from this pair and from the others. -/
theorem pairWired_setPhase {a b : Fin N} {p : Phase} (hself : PairWired S s log a b p)
    (hother : ∀ x y, x < y → ¬ (x = a ∧ y = b) → PairWired S s log x y (ph x y)) (x y : Fin N)
    (hxy : x < y) : PairWired S s log x y (setPhase ph a b p x y) := by
  by_cases h : x = a ∧ y = b
  · obtain ⟨rfl, rfl⟩ := h
    rwa [setPhase_self]
  · rw [setPhase_of_ne h]
    exact hother x y hxy h

/-- What a step of a pair leaves as it is or lets grow, it does so for all pairs. -/
theorem setPhase_rel {R : Phase → Phase → Prop} (hrefl : ∀ p, R p p) {a b : Fin N} {p : Phase}
    (h : R (ph a b) p) (x y : Fin N) : R (ph x y) (setPhase ph a b p x y) := by
  by_cases hxy : x = a ∧ y = b
  · obtain ⟨rfl, rfl⟩ := hxy
    rwa [setPhase_self]
  · rw [setPhase_of_ne hxy]
    exact hrefl _

theorem served_setPhase {a b : Fin N} {p : Phase} (h : p.served = (ph a b).served) (x y : Fin N) :
    (setPhase ph a b p x y).served = (ph x y).served :=
  setPhase_rel (R := fun p p' => p'.served = p.served) (fun _ => rfl) h x y

theorem created_setPhase {a b : Fin N} {p : Phase} (h : (ph a b).created ≤ p.created)
    (x y : Fin N) : (ph x y).created ≤ (setPhase ph a b p x y).created :=
  setPhase_rel (R := fun p p' => p.created ≤ p'.created) (fun _ => le_rfl) h x y

/-- What the queue pairs were created for, after a step of a pair. -/
theorem Wired.logged_setPhase (h : Wired S s ph log) {a b : Fin N} {p : Phase}
    (hcreated : (ph a b).created ≤ p.created) (hserved : (ph a b).served.length ≤ p.served.length)
    (x y : Fin N) (j : ℕ) (hmem : (y, j) ∈ log x) :
    x < y ∧ j < (setPhase ph a b p x y).created ∨
      y < x ∧ j < (setPhase ph a b p y x).served.length ∨ y = x ∧ j < (s.pools x).length := by
  rcases h.logged x y j hmem with ⟨hxy, hj⟩ | ⟨hyx, hj⟩ | hj
  · exact Or.inl ⟨hxy, hj.trans_le (created_setPhase hcreated x y)⟩
  · have hle := setPhase_rel (R := fun p p' => p.served.length ≤ p'.served.length)
      (fun _ => le_rfl) hserved y x
    exact Or.inr (Or.inl ⟨hyx, hj.trans_le hle⟩)
  · exact Or.inr (Or.inr hj)

theorem setPhase_row {a b x : Fin N} {p : Phase} (h : x ≠ a) : setPhase ph a b p x = ph x :=
  update_of_ne h _ _

theorem update_pair_of_ne {α : Type} {f : Fin N → Fin N → α} {a b x y : Fin N} {v : α}
    (h : ¬ (x = a ∧ y = b)) : update f a (update (f a) b v) x y = f x y := by
  by_cases hx : x = a
  · subst hx
    have hy : y ≠ b := fun e => h ⟨rfl, e⟩
    simp [hy]
  · simp [hx]

/-- The place of the loop does not depend on the phase of the node it is at. -/
theorem around_setPhase {a b : Fin N} {p : Phase} (h : MainWired.Around S a (ph a) b) :
    MainWired.Around S a (setPhase ph a b p a) b := by
  refine ⟨h.1, fun c hac hcb => ?_, fun c hbc => ?_⟩
  · rw [setPhase_of_ne fun e => hcb.ne e.2]
    exact h.2.1 c hac hcb
  · rw [setPhase_of_ne fun e => hbc.ne' e.2]
    exact h.2.2 c hbc

/-- The pools that are built do not depend on the phase of a pair that has not finished with
them. -/
theorem poolEntries_setPhase {a b : Fin N} {p : Phase} {x : Fin N} {i q : ℕ}
    (hserved : x = b → p.served = (ph a b).served) (hends : x = a → p.ends = (ph a b).ends) :
    poolEntries S (setPhase ph a b p) x i q = poolEntries S ph x i q := by
  have hs : ∀ y, (setPhase ph a b p y x).served = (ph y x).served := by
    intro y
    by_cases hy : y = a ∧ x = b
    · obtain ⟨rfl, rfl⟩ := hy
      rw [setPhase_self, hserved rfl]
    · rw [setPhase_of_ne hy]
  have he : ∀ y, (setPhase ph a b p x y).ends = (ph x y).ends := by
    intro y
    by_cases hy : x = a ∧ y = b
    · obtain ⟨rfl, rfl⟩ := hy
      rw [setPhase_self, hends rfl]
    · rw [setPhase_of_ne hy]
  simp only [poolEntries, hs, he]

/-- The client has created the queue pair `q` and sent a request. -/
theorem PairWired.request {a b : Fin N} {p : Phase} {q : ℕ} (h : PairWired S s log a b p)
    (hst : p.stage = .idle) (hq : q = (log a).length)
    (hreq : s'.requests a b = s.requests a b ++ [S.context a q (S.id a p.ends.length)])
    (hans : s'.answers a b = s.answers a b) (hcl : s'.clients a = s.clients a)
    (hlc : s'.main b ≠ .done → s.main b ≠ .done ∧ s'.listenerClients b = s.listenerClients b)
    (hsv : s'.main a ≠ .done → s.main a ≠ .done ∧ s'.connectedServers a = s.connectedServers a)
    (hsock : a ∈ s'.backlog b ∨ a ∈ s'.clientSockets b ∨ s'.main a = .done) :
    PairWired S s' (record log a (b, p.ends.length)) a b ⟨p.ends, .requested q⟩ where
  requests := by
    have hnil := h.requests
    simp only [hst] at hnil
    rw [hreq, hnil]
    rfl
  answers := by
    rw [hans, h.answers, hst]
  clients j hj := by
    rw [hcl]
    exact h.clients j hj
  listenerClients hd j hj := by
    rw [(hlc hd).2, h.listenerClients (hlc hd).1 j hj, Phase.served_of_idle hst]
    rfl
  servers hd := by
    rw [(hsv hd).2]
    exact h.servers (hsv hd).1
  socket _ := hsock
  reply _ _ he := by cases he
  logServed j e hj := by
    obtain ⟨h1, h2⟩ := h.logServed j e (by rwa [Phase.served_of_idle hst])
    exact ⟨record_mono h1, record_mono h2⟩
  logRequest q' he := by
    obtain rfl := Stage.requested.inj he
    rw [hq]
    exact record_self _ _

/-- `Connect` sends a request. -/
theorem Wired.request (h : Wired S s ph log) {a b fd : Fin N} {j : ℕ}
    (hm : s.main a = .request b j fd) :
    Wired S { s with
      main := update s.main a (.receive b j fd (s.qps a))
      qps := update s.qps a (s.qps a + 1)
      requests := update s.requests a (update (s.requests a) fd
        (s.requests a fd ++ [S.context a (s.qps a) (S.id a j)])) }
      (setPhase ph a b ⟨(ph a b).ends, .requested (s.qps a)⟩) (record log a (b, j)) := by
  have hmain := h.main a
  rw [hm] at hmain
  obtain ⟨hat, hj, rfl, hidle, rfl⟩ := hmain
  have hab := hat.1
  have hp := h.pair a fd hab
  have hserved : (⟨(ph a fd).ends, .requested (s.qps a)⟩ : Phase).served = (ph a fd).served := by
    rw [Phase.served_of_idle hidle]
    rfl
  have hne : s.main a ≠ .done := by simp [hm]
  have hdone := update_main_iff (.receive fd (ph a fd).ends.length fd (s.qps a)) .done hne (by simp)
  have hother : ∀ x y, ¬ (x = a ∧ y = fd) → update s.requests a (update (s.requests a) fd
      (s.requests a fd ++ [S.context a (s.qps a) (S.id a (ph a fd).ends.length)])) x y =
      s.requests x y :=
    fun x y hxy => update_pair_of_ne hxy
  have hnew : (fd, (ph a fd).ends.length) ∉ log a := by
    intro hmem
    rcases h.logged a fd _ hmem with ⟨-, hlt⟩ | ⟨hlt, -⟩ | ⟨he, -⟩
    · rw [Phase.created_of_idle hidle] at hlt
      omega
    · exact lt_asymm hab hlt
    · exact hab.ne' he
  exact {
    main := fun x => by
      by_cases hx : x = a
      · subst hx
        simp only [update_self]
        exact ⟨around_setPhase hat, hj, by simp, rfl, Or.inl (by simp)⟩
      · rw [setPhase_row hx]
        simpa [hx] using h.main x
    pair := by
      refine pairWired_setPhase ?_ fun x y hxy hxy' => ?_
      · exact hp.request hidle (h.qps a) (by simp) rfl rfl
          (fun hd => ⟨mt (hdone fd).2 hd, rfl⟩) (fun hd => ⟨mt (hdone a).2 hd, rfl⟩)
          ((hp.socket (Or.inr ⟨_, _, hm⟩)).imp_right (Or.imp_right (hdone a).2))
      · refine (h.pair x y hxy).recorded.frame (hother x y hxy') rfl (fun _ _ => rfl)
          (fun hd => ⟨mt (hdone y).2 hd, fun _ _ => rfl⟩) (fun hd => ⟨mt (hdone x).2 hd, rfl⟩)
          (fun hor => ?_) (fun _ _ hr => hr)
        have hor' : ph x y ≠ .empty ∨ ∃ j fd, s.main x = .request y j fd := by
          refine hor.imp_right fun hreq => ?_
          obtain ⟨i, fd', hr⟩ := hreq
          refine ⟨i, fd', ?_⟩
          by_cases hx : x = a
          · subst hx
            simp at hr
          · simpa [hx] using hr
        exact ((h.pair x y hxy).socket hor').imp_right (Or.imp_right (hdone x).2)
    outside := fun x y hxy => by
      exact (hother x y fun e => hxy (by rw [e.1, e.2]; exact hab)).trans (h.outside x y hxy)
    ready := fun y x hx => by
      refine (h.ready y x hx).imp (fun hr => ?_) (hdone x).2
      by_cases hxy : x = a ∧ y = fd
      · obtain ⟨rfl, rfl⟩ := hxy
        simp
      · exact fun he => hr ((hother x y hxy).symm.trans he)
    accepting := h.accepting
    replying := fun y ready x ctx hy => by
      obtain ⟨hxy, q, q', hst⟩ := h.replying y ready x ctx hy
      have hne' : ¬ (x = a ∧ y = fd) := fun e => by
        rw [e.1, e.2, hidle] at hst
        cases hst
      exact ⟨hxy, q, q', by rwa [setPhase_of_ne hne']⟩
    off := fun y => (h.off y).trans (update_main_iff _ _ (by simp [hm]) (by simp) y).symm
    returned := fun y hy => h.returned y
      (hy.imp (update_main_iff _ _ (by simp [hm]) (by simp) y).1 (hdone y).1)
    complete := fun y hy x hxy => by
      rw [served_setPhase hserved]
      exact h.complete y hy x hxy
    keys := fun y hy => h.keys y (mt (hdone y).2 hy)
    counter := fun y hy => h.counter y (mt (hdone y).2 hy)
    qps := fun x => record_length a x _ h.qps
    nodup := record_nodup h.nodup hnew
    logged := fun x y i hmem => by
      rcases mem_record.1 hmem with hmem | ⟨rfl, he⟩
      · refine h.logged_setPhase ?_ (congrArg List.length hserved).ge x y i hmem
        rw [Phase.created_of_idle hidle]
        exact Nat.le_succ _
      · obtain ⟨rfl, rfl⟩ := Prod.mk.inj he
        refine Or.inl ⟨hab, ?_⟩
        simp only [setPhase_self, Phase.created]
        omega
    pools := fun x i m hmap => by
      obtain ⟨q, hq, rfl⟩ := h.pools x i m hmap
      exact ⟨q, record_mono hq, (poolEntries_setPhase (fun _ => hserved) fun _ => rfl).symm⟩
    noPools := fun x hb hd => h.noPools x
      (mt (update_main_iff _ _ (by simp [hm]) (by simp) x).2 hb) (mt (hdone x).2 hd)
    poolsLe := h.poolsLe
    allPools := fun x hd => h.allPools x ((hdone x).1 hd) }

/-- What the listener finds when it reads a request. -/
theorem Wired.of_requests (h : Wired S s ph log) {a b : Fin N} {ctx : ConnectionContext}
    {rest : List ConnectionContext} (hr : s.requests a b = ctx :: rest) :
    a < b ∧ ∃ q, (ph a b).stage = .requested q ∧ (ph a b).ends.length < S.T ∧ rest = [] ∧
      ctx = S.context a q (S.id a (ph a b).ends.length) ∧
      s.main a = .receive b (ph a b).ends.length b q := by
  have hab : a < b := by
    by_contra hn
    rw [h.outside a b hn] at hr
    cases hr
  have hreq := (h.pair a b hab).requests
  rw [hr] at hreq
  rcases (h.main a).stage_cases hab with ⟨hst, -⟩ | ⟨q, hm, hlt, hst⟩
  · rw [hst] at hreq
    cases hreq
  · rcases hst with hst | ⟨q', hst | hst⟩
    · rw [hst] at hreq
      obtain ⟨rfl, rfl⟩ := List.cons.inj hreq
      exact ⟨hab, q, hst, hlt, rfl, rfl, hm⟩
    · rw [hst] at hreq
      cases hreq
    · rw [hst] at hreq
      cases hreq

theorem int32_ofNat_succ (n : ℕ) : Int32.ofNat (n + 1) = Int32.ofNat n + 1 := Int32.ofNat_add n 1

/-- A new key is one more entry. -/
theorem ncard_insert_key {m : UInt32 → Option TargetContext} {k : UInt32} {t : TargetContext} {n : ℕ}
    (hk : m k = none) (hn : n ≤ 2 ^ 32) (hm : ∀ k : UInt32, n ≤ k.toNat → m k = none) :
    Set.ncard {k' | update m k (some t) k' ≠ none} = Set.ncard {k' | m k' ≠ none} + 1 := by
  have hfin : {k' | m k' ≠ none}.Finite := by
    refine Set.Finite.subset (s := {k' : UInt32 | k'.toNat < n}) ?_ fun k' hk' => ?_
    · by_cases h0 : n = 0
      · simp [h0]
      · exact Set.finite_of_ncard_ne_zero (by rwa [ncard_lt n hn])
    · by_contra hle
      exact hk' (hm k' (Nat.le_of_not_lt hle))
  have hset : {k' | update m k (some t) k' ≠ none} = insert k {k' | m k' ≠ none} := by
    ext k'
    by_cases hkk : k' = k
    · simp [hkk]
    · simp [hkk]
  rw [hset, Set.ncard_insert_of_notMem (by simpa using hk) hfin]

/-- The server has created the queue pair `q'` for the request of `q`. -/
theorem PairWired.handle {a b : Fin N} {p : Phase} {q q' : ℕ} (h : PairWired S s log a b p)
    (hst : p.stage = .requested q) (hq : q' = (log b).length)
    (hb : s.main b ≠ .done) (hreq : s'.requests a b = []) (hans : s'.answers a b = s.answers a b)
    (hcl : s'.clients a = s.clients a)
    (hlc : ∀ j < S.T, s'.listenerClients b (S.id a j) = if j = p.ends.length then
      some ((S.endpoint b).accept q' (S.context a q (S.id a p.ends.length)))
      else s.listenerClients b (S.id a j))
    (hsv : s'.main a ≠ .done → s.main a ≠ .done ∧ s'.connectedServers a = s.connectedServers a)
    (hsock : a ∈ s'.backlog b ∨ a ∈ s'.clientSockets b ∨ s'.main a = .done)
    (hrep : ∃ ready, s'.listener b = .reply ready a (S.context b q' (S.id a p.ends.length))) :
    PairWired S s' (record log b (a, p.ends.length)) a b ⟨p.ends, .entered q q'⟩ where
  requests := hreq
  answers := by
    rw [hans, h.answers, hst]
  clients j hj := by
    rw [hcl]
    exact h.clients j hj
  listenerClients _ j hj := by
    rw [hlc j hj]
    split_ifs with hjl
    · subst hjl
      simp [Phase.served]
    · rw [h.listenerClients hb j hj]
      simp only [Phase.served, hst]
      rcases lt_or_gt_of_ne hjl with hlt | hgt
      · rw [List.getElem?_append_left hlt]
      · rw [List.getElem?_eq_none hgt.le, List.getElem?_eq_none (by simp; omega)]
  servers hd := by
    rw [(hsv hd).2]
    exact h.servers (hsv hd).1
  socket _ := hsock
  reply q₁ q₂ he := by
    obtain ⟨-, rfl⟩ := Stage.entered.inj he
    exact hrep
  logServed j e he := by
    rcases lt_or_ge j p.ends.length with hj | hj
    · simp only [Phase.served, List.getElem?_append_left hj] at he
      obtain ⟨h1, h2⟩ := h.logServed j e (by simpa only [Phase.served, hst] using he)
      exact ⟨record_mono h1, record_mono h2⟩
    · have hj' := (List.getElem?_eq_some_iff.1 he).1
      simp only [Phase.served, List.length_append, List.length_singleton] at hj'
      obtain rfl : j = p.ends.length := by omega
      simp only [Phase.served, List.getElem?_concat_length] at he
      obtain rfl := Option.some.inj he
      refine ⟨record_mono (h.logRequest q hst), ?_⟩
      rw [hq]
      exact record_self _ _
  logRequest _ he := by cases he

/-- The listener inserts a queue pair for a request. -/
theorem Wired.handle (h : Wired S s ph log) {a b : Fin N} {ready : Finset (Fin N)}
    {ctx : ConnectionContext} {rest : List ConnectionContext} (hl : s.listener b = .scan ready)
    (hr : s.requests a b = ctx :: rest) :
    ∃ ph' log', Wired S { s with
      listener := update s.listener b (.reply (ready.erase a) a (S.context b (s.qps b) ctx.id))
      requests := update s.requests a (update (s.requests a) b rest)
      qps := update s.qps b (s.qps b + 1)
      connectedClients := update s.connectedClients b
        (if (s.listenerClients b ctx.id).isSome then s.connectedClients b - 1
          else s.connectedClients b)
      listenerClients := update s.listenerClients b
        (update (s.listenerClients b) ctx.id (some ((S.endpoint b).accept (s.qps b) ctx))) } ph' log' := by
  obtain ⟨hab, q, hst, hlt, rfl, rfl, hm⟩ := h.of_requests hr
  have hp := h.pair a b hab
  have hbdone : s.main b ≠ .done := h.main_ne_done (by simp [hl])
  have hserved : (ph a b).served = (ph a b).ends := by simp [Phase.served, hst]
  have hid : (S.context a q (S.id a (ph a b).ends.length)).id = S.id a (ph a b).ends.length := rfl
  have hfree : s.listenerClients b (S.id a (ph a b).ends.length) = none := by
    rw [hp.listenerClients hbdone _ hlt, hserved]
    simp
  have hnew : (a, (ph a b).ends.length) ∉ log b := by
    intro hmem
    rcases h.logged b a _ hmem with ⟨hba, -⟩ | ⟨-, hj⟩ | ⟨he, -⟩
    · exact lt_asymm hab hba
    · rw [hserved] at hj
      exact lt_irrefl _ hj
    · exact hab.ne he
  have hother : ∀ x y, ¬ (x = a ∧ y = b) →
      update s.requests a (update (s.requests a) b []) x y = s.requests x y :=
    fun x y hxy => update_pair_of_ne hxy
  -- the other entries of the listener's map stay
  have hkeep : ∀ x y j, j < S.T → ¬ (x = a ∧ y = b ∧ j = (ph a b).ends.length) →
      update s.listenerClients b (update (s.listenerClients b) (S.id a (ph a b).ends.length)
        (some ((S.endpoint b).accept (s.qps b) (S.context a q (S.id a (ph a b).ends.length))))) y (S.id x j) =
      s.listenerClients y (S.id x j) := by
    intro x y j hj hne
    by_cases hy : y = b
    · subst hy
      have hk : S.id x j ≠ S.id a (ph a y).ends.length := fun e => by
        obtain ⟨hx, hj'⟩ := S.id_inj hj hlt e
        exact hne ⟨hx, rfl, hj'⟩
      simp [hk]
    · simp [hy]
  refine ⟨setPhase ph a b ⟨(ph a b).ends, .entered q (s.qps b)⟩,
    record log b (a, (ph a b).ends.length), ?_⟩
  simp only [hid, hfree, Option.isSome_none, Bool.false_eq_true, if_false, update_eq_self]
  exact {
    main := fun x => by
      by_cases hx : x = a
      · subst hx
        have hmain := h.main x
        rw [hm] at hmain ⊢
        obtain ⟨hat, hj, hlen, hfd, -⟩ := hmain
        exact ⟨around_setPhase hat, hj, by simp, hfd, Or.inr ⟨s.qps b, Or.inl (by simp)⟩⟩
      · rw [setPhase_row hx]
        exact h.main x
    pair := by
      refine pairWired_setPhase ?_ fun x y hxy hxy' => ?_
      · refine hp.handle hst (h.qps b) hbdone (by simp) rfl rfl (fun j hj => ?_)
          (fun hd => ⟨hd, rfl⟩) (hp.socket (Or.inl fun he => by rw [he] at hst; cases hst))
          ⟨ready.erase a, by simp⟩
        split_ifs with hjl
        · simp [hjl]
        · exact hkeep a b j hj fun e => hjl e.2.2
      · refine (h.pair x y hxy).recorded.frame (hother x y hxy') rfl (fun _ _ => rfl)
          (fun hd => ⟨hd, fun j hj => hkeep x y j hj fun e => hxy' ⟨e.1, e.2.1⟩⟩)
          (fun hd => ⟨hd, rfl⟩) (h.pair x y hxy).socket (fun ready' ctx' hrep => ?_)
        by_cases hy : y = b
        · subst hy
          rw [hl] at hrep
          cases hrep
        · simpa [hy] using hrep
    outside := fun x y hxy =>
      (hother x y fun e => hxy (by rw [e.1, e.2]; exact hab)).trans (h.outside x y hxy)
    ready := fun y x hx => by
      by_cases hy : y = b
      · subst hy
        simp only [update_self, Listener.ready, Finset.mem_erase] at hx
        have hrd := h.ready y x (by rw [hl]; exact hx.2)
        exact hrd.imp_left fun hne he => hne ((hother x y fun e => hx.1 e.1).symm.trans he)
      · refine (h.ready y x (by simpa [hy] using hx)).imp_left fun hne he => hne ?_
        exact (hother x y fun e => hy e.2).symm.trans he
    accepting := fun y ready' hy => by
      by_cases hyb : y = b
      · subst hyb
        simp at hy
      · exact h.accepting y ready' (by simpa [hyb] using hy)
    replying := fun y ready' x ctx' hy => by
      by_cases hyb : y = b
      · subst hyb
        simp only [update_self, Listener.reply.injEq] at hy
        obtain ⟨-, rfl, -⟩ := hy
        exact ⟨hab, q, s.qps y, by simp⟩
      · obtain ⟨hxy, hst'⟩ := h.replying y ready' x ctx' (by simpa [hyb] using hy)
        exact ⟨hxy, by rwa [setPhase_of_ne fun e => hyb e.2]⟩
    off := fun y => by
      by_cases hy : y = b
      · subst hy
        have := h.off y
        rw [hl] at this
        simpa using this
      · simpa [hy] using h.off y
    returned := fun y hy => by
      have hyr := h.returned y hy
      have hyb : y ≠ b := fun e => by rw [e, hl] at hyr; cases hyr
      simpa [hyb] using hyr
    complete := fun y hy x hxy => by
      have hyb : y ≠ b := fun e => by simp [e] at hy
      rw [setPhase_of_ne fun e => hyb e.2]
      exact h.complete y (by simpa [hyb] using hy) x hxy
    keys := fun y hy k hk => by
      by_cases hyb : y = b
      · subst hyb
        have hne : k ≠ S.id a (ph a y).ends.length := fun e => by
          have := S.id_lt hab hlt
          rw [← e] at this
          omega
        simpa [hne] using h.keys y hy k hk
      · simpa [hyb] using h.keys y hy k hk
    counter := fun y hy => by
      by_cases hyb : y = b
      · subst hyb
        have hcount := h.counter y hy
        rw [hl] at hcount
        simp only [update_self, Listener.busy]
        rw [ncard_insert_key hfree (S.mul_lt y).le (h.keys y hy), int32_ofNat_succ, ← hcount]
        simp [Listener.busy]
      · simpa [hyb] using h.counter y hy
    qps := fun x => record_length b x _ h.qps
    nodup := record_nodup h.nodup hnew
    logged := fun x y i hmem => by
      rcases mem_record.1 hmem with hmem | ⟨rfl, he⟩
      · refine h.logged_setPhase ?_ ?_ x y i hmem
        · simp [Phase.created, hst]
        · rw [hserved]
          simp [Phase.served]
      · obtain ⟨rfl, rfl⟩ := Prod.mk.inj he
        exact Or.inr (Or.inl ⟨hab, by simp [Phase.served]⟩)
    pools := fun x i m hmap => by
      obtain ⟨q', hq', rfl⟩ := h.pools x i m hmap
      -- node `b` has no pools yet
      have hxb : x ≠ b := by
        rintro rfl
        have hbuild : s.main x ≠ .build := fun hb => by
          have := h.returned x (Or.inl hb)
          rw [hl] at this
          cases this
        have hnil := h.noPools x hbuild hbdone
        simp [hnil] at hmap
      exact ⟨q', record_mono hq', (poolEntries_setPhase
        (p := ⟨(ph a b).ends, .entered q (s.qps b)⟩) (fun hx => absurd hx hxb) fun _ => rfl).symm⟩
    noPools := h.noPools
    poolsLe := h.poolsLe
    allPools := h.allPools }

/-- The server has sent the answer. -/
theorem PairWired.answer {a b : Fin N} {p : Phase} {q q' : ℕ} (h : PairWired S s log a b p)
    (hst : p.stage = .entered q q') (hreq : s'.requests a b = s.requests a b)
    (hans : s'.answers a b = s.answers a b ++ [S.context b q' (S.id a p.ends.length)])
    (hcl : s'.clients a = s.clients a)
    (hlc : s'.main b ≠ .done → s.main b ≠ .done ∧ s'.listenerClients b = s.listenerClients b)
    (hsv : s'.main a ≠ .done → s.main a ≠ .done ∧ s'.connectedServers a = s.connectedServers a)
    (hsock : a ∈ s'.backlog b ∨ a ∈ s'.clientSockets b ∨ s'.main a = .done) :
    PairWired S s' log a b ⟨p.ends, .answered q q'⟩ where
  requests := by
    rw [hreq, h.requests, hst]
  answers := by
    have hnil := h.answers
    simp only [hst] at hnil
    rw [hans, hnil]
    rfl
  clients j hj := by
    rw [hcl]
    exact h.clients j hj
  listenerClients hd j hj := by
    rw [(hlc hd).2, h.listenerClients (hlc hd).1 j hj]
    simp only [Phase.served, hst]
  servers hd := by
    rw [(hsv hd).2]
    exact h.servers (hsv hd).1
  socket _ := hsock
  reply _ _ he := by cases he
  logServed j e he := h.logServed j e (by simpa only [Phase.served, hst] using he)
  logRequest _ he := by cases he

/-- The listener sends the answer. -/
theorem Wired.reply (h : Wired S s ph log) {a b : Fin N} {ready : Finset (Fin N)}
    {ctx : ConnectionContext} (hl : s.listener b = .reply ready a ctx) :
    ∃ ph', Wired S { s with
      listener := update s.listener b (.count ready)
      answers := update s.answers a (update (s.answers a) b (s.answers a b ++ [ctx])) } ph' log := by
  obtain ⟨hab, q, q', hst⟩ := h.replying b ready a ctx hl
  have hp := h.pair a b hab
  obtain ⟨ready', hctx⟩ := hp.reply q q' hst
  obtain rfl : ctx = S.context b q' (S.id a (ph a b).ends.length) := by
    rw [hl] at hctx
    exact (Listener.reply.inj hctx).2.2
  have hserved : (⟨(ph a b).ends, .answered q q'⟩ : Phase).served = (ph a b).served := by
    simp [Phase.served, hst]
  have hcreated : (⟨(ph a b).ends, .answered q q'⟩ : Phase).created = (ph a b).created := by
    simp [Phase.created, hst]
  refine ⟨setPhase ph a b ⟨(ph a b).ends, .answered q q'⟩, ?_⟩
  exact {
    main := fun x => by
      by_cases hx : x = a
      · subst hx
        rcases (h.main x).stage_cases hab with ⟨hidle, -⟩ | ⟨q₁, hm, hlt, hst'⟩
        · rw [hst] at hidle
          cases hidle
        · obtain rfl : q₁ = q := by
            rcases hst' with he | ⟨q₂, he | he⟩
            · rw [hst] at he
              cases he
            · rw [hst] at he
              exact (Stage.entered.inj he).1.symm
            · rw [hst] at he
              cases he
          have hmain := h.main x
          rw [hm] at hmain ⊢
          exact ⟨around_setPhase hmain.1, hlt, by simp, rfl, Or.inr ⟨q', Or.inr (by simp)⟩⟩
      · rw [setPhase_row hx]
        exact h.main x
    pair := by
      refine pairWired_setPhase ?_ fun x y hxy hxy' => ?_
      · exact hp.answer hst rfl (by simp) rfl (fun hd => ⟨hd, rfl⟩) (fun hd => ⟨hd, rfl⟩)
          (hp.socket (Or.inl fun he => by rw [he] at hst; cases hst))
      · refine (h.pair x y hxy).frame rfl (update_pair_of_ne hxy') (fun _ _ => rfl)
          (fun hd => ⟨hd, fun _ _ => rfl⟩) (fun hd => ⟨hd, rfl⟩) (h.pair x y hxy).socket
          (fun ready₁ ctx₁ hrep => ?_)
        by_cases hy : y = b
        · subst hy
          rw [hl] at hrep
          exact absurd ⟨(Listener.reply.inj hrep).2.1.symm, rfl⟩ hxy'
        · simpa [hy] using hrep
    outside := h.outside
    ready := fun y x hx => by
      by_cases hy : y = b
      · subst hy
        exact h.ready y x (by rw [hl]; simpa [Listener.ready] using hx)
      · exact h.ready y x (by simpa [hy] using hx)
    accepting := fun y ready₁ hy => by
      by_cases hyb : y = b
      · subst hyb
        simp at hy
      · exact h.accepting y ready₁ (by simpa [hyb] using hy)
    replying := fun y ready₁ x ctx₁ hy => by
      have hyb : y ≠ b := fun e => by simp [e] at hy
      obtain ⟨hxy, hst'⟩ := h.replying y ready₁ x ctx₁ (by simpa [hyb] using hy)
      exact ⟨hxy, by rwa [setPhase_of_ne fun e => hyb e.2]⟩
    off := fun y => by
      by_cases hy : y = b
      · subst hy
        have := h.off y
        rw [hl] at this
        simpa using this
      · simpa [hy] using h.off y
    returned := fun y hy => by
      have hyr := h.returned y hy
      have hyb : y ≠ b := fun e => by rw [e, hl] at hyr; cases hyr
      simpa [hyb] using hyr
    complete := fun y hy x hxy => by
      have hyb : y ≠ b := fun e => by simp [e] at hy
      rw [served_setPhase hserved]
      exact h.complete y (by simpa [hyb] using hy) x hxy
    keys := h.keys
    counter := fun y hy => by
      by_cases hyb : y = b
      · subst hyb
        have hcount := h.counter y hy
        rw [hl] at hcount
        simpa [Listener.busy] using hcount
      · simpa [hyb] using h.counter y hy
    qps := h.qps
    nodup := h.nodup
    logged := h.logged_setPhase hcreated.ge (congrArg List.length hserved).ge
    pools := fun x i m hmap => by
      obtain ⟨q₁, hq₁, rfl⟩ := h.pools x i m hmap
      exact ⟨q₁, hq₁, (poolEntries_setPhase (p := ⟨(ph a b).ends, .answered q q'⟩)
        (fun _ => hserved) fun _ => rfl).symm⟩
    noPools := h.noPools
    poolsLe := h.poolsLe
    allPools := h.allPools }

theorem next_cases (S : Setup N) (b : Fin N) (j : ℕ) :
    S.next b j = .wait ∨ ∃ b' j', S.next b j = .connect b' j' := by
  unfold Setup.next
  split_ifs
  · exact Or.inr ⟨_, _, rfl⟩
  · rcases connectFrom_cases N (b.val + 1) with h | ⟨b', h⟩
    · exact Or.inl h
    · exact Or.inr ⟨b', 0, h⟩

/-- The client has received the answer and connected its queue pair. -/
theorem PairWired.receive {a b : Fin N} {p : Phase} {q q' : ℕ} (h : PairWired S s log a b p)
    (hst : p.stage = .answered q q') (hreq : s'.requests a b = s.requests a b)
    (hans : s'.answers a b = [])
    (hcl : ∀ j < S.T, s'.clients a (S.id b j) = if j = p.ends.length then
      some ((S.endpoint a).connect q (S.context b q' (S.id a p.ends.length))) else s.clients a (S.id b j))
    (hlc : s'.main b ≠ .done → s.main b ≠ .done ∧ s'.listenerClients b = s.listenerClients b)
    (hsv : s'.connectedServers a (S.ip b) = some b)
    (hsock : a ∈ s'.backlog b ∨ a ∈ s'.clientSockets b ∨ s'.main a = .done) :
    PairWired S s' log a b ⟨p.ends ++ [(q, q')], .idle⟩ where
  requests := by
    rw [hreq, h.requests, hst]
  answers := hans
  clients j hj := by
    rw [hcl j hj]
    split_ifs with hjl
    · subst hjl
      simp
    · rw [h.clients j hj]
      rcases lt_or_gt_of_ne hjl with hlt | hgt
      · rw [List.getElem?_append_left hlt]
      · rw [List.getElem?_eq_none hgt.le, List.getElem?_eq_none (by simp; omega)]
  listenerClients hd j hj := by
    rw [(hlc hd).2, h.listenerClients (hlc hd).1 j hj]
    simp only [Phase.served, hst]
  servers _ := by simpa using hsv
  socket _ := hsock
  reply _ _ he := by cases he
  logServed j e he := h.logServed j e (by simpa only [Phase.served, hst] using he)
  logRequest _ he := by cases he

/-- `Connect` receives the answer. -/
theorem Wired.receive (h : Wired S s ph log) {a b fd : Fin N} {j qp : ℕ} {ctx : ConnectionContext}
    {rest : List ConnectionContext} (hm : s.main a = .receive b j fd qp)
    (hr : s.answers a fd = ctx :: rest) :
    ∃ ph', Wired S { s with
      main := update s.main a (S.next b j)
      answers := update s.answers a (update (s.answers a) fd rest)
      connectedServers := update s.connectedServers a
        (update (s.connectedServers a) (S.ip b) (some fd))
      clients := update s.clients a
        (update (s.clients a) (S.id b j) (some ((S.endpoint a).connect qp ctx))) } ph' log := by
  have hmain := h.main a
  rw [hm] at hmain
  obtain ⟨hat, hj, hlen, rfl, hst⟩ := hmain
  have hab := hat.1
  have hp := h.pair a fd hab
  -- the answer is the one for this request
  obtain ⟨q', hst, rfl, rfl⟩ : ∃ q', (ph a fd).stage = .answered qp q' ∧ rest = [] ∧
      ctx = S.context fd q' (S.id a j) := by
    have hans := hp.answers
    rw [hr] at hans
    rcases hst with hst | ⟨q', hst | hst⟩ <;> rw [hst] at hans
    · cases hans
    · cases hans
    · obtain ⟨rfl, rfl⟩ := List.cons.inj hans
      exact ⟨q', hst, rfl, by rw [hlen]⟩
  have hserved : (⟨(ph a fd).ends ++ [(qp, q')], .idle⟩ : Phase).served = (ph a fd).served := by
    simp [Phase.served, hst]
  have hcreated : (⟨(ph a fd).ends ++ [(qp, q')], .idle⟩ : Phase).created = (ph a fd).created := by
    simp [Phase.created, hst]
  have hnext := next_cases S fd j
  have hne : ∀ pc : Main N, pc = .start ∨ pc = .build ∨ pc = .done ∨
      (∃ b j fd, pc = .request b j fd) → S.next fd j ≠ pc := by
    intro pc hpc
    rcases hnext with he | ⟨b', j', he⟩ <;> rw [he] <;> rintro rfl <;> simp at hpc
  have hdone := update_main_iff (s := s) (a := a) (S.next fd j) .done (by simp [hm])
    (hne _ (by simp))
  have hbuild := update_main_iff (s := s) (a := a) (S.next fd j) .build (by simp [hm])
    (hne _ (by simp))
  have hstart := update_main_iff (s := s) (a := a) (S.next fd j) .start (by simp [hm])
    (hne _ (by simp))
  refine ⟨setPhase ph a fd ⟨(ph a fd).ends ++ [(qp, q')], .idle⟩, ?_⟩
  exact {
    main := fun x => by
      by_cases hx : x = a
      · subst hx
        simp only [update_self]
        unfold Setup.next
        split_ifs with hlt
        · exact ⟨around_setPhase hat, hlt, by simp [hlen], by simp⟩
        · refine mainWired_connectFrom (Nat.lt_succ_of_lt (Fin.lt_def.1 hab)) (fun c hc hcf => ?_)
            fun c hc => ?_
          · rcases (Nat.le_of_lt_succ hcf).eq_or_lt with he | hcf
            · obtain rfl := Fin.ext he
              rw [setPhase_self]
              exact ⟨by simp only [List.length_append, List.length_singleton]; omega, rfl⟩
            · rw [setPhase_of_ne fun e => (Fin.ne_of_lt hcf) e.2]
              exact hat.2.1 c hc hcf
          · rw [setPhase_of_ne fun e => (Fin.ne_of_gt (Fin.lt_def.2 hc)) e.2]
            exact hat.2.2 c (Fin.lt_def.2 hc)
      · rw [setPhase_row hx]
        simpa [hx] using h.main x
    pair := by
      refine pairWired_setPhase ?_ fun x y hxy hxy' => ?_
      · refine hp.receive hst rfl (by simp) (fun i hi => ?_) (fun hd => ⟨mt (hdone fd).2 hd, rfl⟩)
          (by simp) ((hp.socket (Or.inl fun he => by rw [he] at hst; cases hst)).imp_right
            (Or.imp_right (hdone a).2))
        split_ifs with hij
        · simp [hij, hlen]
        · have hk : S.id fd i ≠ S.id fd j := fun e => hij ((S.id_inj hi hj e).2.trans hlen.symm)
          simp [hk]
      · refine (h.pair x y hxy).frame rfl (update_pair_of_ne hxy') (fun i hi => ?_)
          (fun hd => ⟨mt (hdone y).2 hd, fun _ _ => rfl⟩) (fun hd => ⟨mt (hdone x).2 hd, ?_⟩)
          (fun hor => ?_) (fun _ _ hrep => hrep)
        · by_cases hx : x = a
          · subst hx
            have hk : S.id y i ≠ S.id fd j := fun e => hxy' ⟨rfl, (S.id_inj hi hj e).1⟩
            simp [hk]
          · simp [hx]
        · by_cases hx : x = a
          · subst hx
            have hk : S.ip y ≠ S.ip fd := fun e => hxy' ⟨rfl, S.ip_injective e⟩
            simp [hk]
          · simp [hx]
        · have hor' : ph x y ≠ .empty ∨ ∃ j fd, s.main x = .request y j fd := by
            refine hor.imp_right fun hpc => ?_
            obtain ⟨i, fd', hreq⟩ := hpc
            refine ⟨i, fd', ?_⟩
            by_cases hx : x = a
            · subst hx
              exact absurd (by simpa using hreq) (hne (.request y i fd') (by simp))
            · simpa [hx] using hreq
          exact ((h.pair x y hxy).socket hor').imp_right (Or.imp_right (hdone x).2)
    outside := h.outside
    ready := fun y x hx => (h.ready y x hx).imp_right (hdone x).2
    accepting := h.accepting
    replying := fun y ready x ctx hy => by
      obtain ⟨hxy, q₁, q₂, hst'⟩ := h.replying y ready x ctx hy
      have hne' : ¬ (x = a ∧ y = fd) := fun e => by
        rw [e.1, e.2, hst] at hst'
        cases hst'
      exact ⟨hxy, q₁, q₂, by rwa [setPhase_of_ne hne']⟩
    off := fun y => (h.off y).trans (hstart y).symm
    returned := fun y hy => h.returned y (hy.imp (hbuild y).1 (hdone y).1)
    complete := fun y hy x hxy => by
      rw [served_setPhase hserved]
      exact h.complete y hy x hxy
    keys := fun y hy => h.keys y (mt (hdone y).2 hy)
    counter := fun y hy => h.counter y (mt (hdone y).2 hy)
    qps := h.qps
    nodup := h.nodup
    logged := h.logged_setPhase hcreated.ge (congrArg List.length hserved).ge
    pools := fun x i m hmap => by
      obtain ⟨q₁, hq₁, rfl⟩ := h.pools x i m hmap
      -- node `a` has no pools yet
      have hxa : x ≠ a := by
        rintro rfl
        have hnil := h.noPools x (by simp [hm]) (by simp [hm])
        simp [hnil] at hmap
      exact ⟨q₁, hq₁, (poolEntries_setPhase (p := ⟨(ph a fd).ends ++ [(qp, q')], .idle⟩)
        (fun _ => hserved) fun hx => absurd hx hxa).symm⟩
    noPools := fun x hb hd => h.noPools x (mt (hbuild x).2 hb) (mt (hdone x).2 hd)
    poolsLe := h.poolsLe
    allPools := fun x hd => h.allPools x ((hdone x).1 hd) }

/-! ### Runs -/

theorem wired_initial (S : Setup N) :
    Wired S (initial N) (fun _ _ => .empty) fun _ => [] where
  main _ := fun _ _ => rfl
  pair a b hab := by
    refine ⟨rfl, rfl, fun j _ => rfl, fun _ j _ => rfl, fun _ => rfl, fun hor => ?_, fun q q' he => ?_,
      fun j e he => ?_, fun q he => ?_⟩
    · rcases hor with he | ⟨j, fd, he⟩
      · exact absurd rfl he
      · cases he
    · cases he
    · simp [Phase.served, Phase.empty] at he
    · cases he
  outside _ _ _ := rfl
  ready _ _ ha := by simp [initial, Listener.ready] at ha
  accepting _ _ he := by cases he
  replying _ _ _ _ he := by cases he
  off _ := ⟨fun _ => rfl, fun _ => rfl⟩
  returned _ hb := by rcases hb with hb | hb <;> cases hb
  complete _ he := by cases he
  keys _ _ _ _ := rfl
  counter _ _ := by simp [initial, Listener.busy]
  qps _ := rfl
  nodup _ := List.nodup_nil
  logged _ _ _ hmem := by cases hmem
  pools _ _ _ he := by simp [initial] at he
  noPools _ _ _ := rfl
  poolsLe _ := Nat.zero_le _
  allPools _ he := by cases he

theorem Wired.step (h : Wired S s ph log) (hs : Step S s s') :
    ∃ ph' log', Wired S s' ph' log' := by
  cases hs with
  | start hm => exact ⟨_, _, h.start hm⟩
  | cached hm hf => exact ⟨_, _, h.cached hm hf⟩
  | dial hm hf hb => exact ⟨_, _, h.dial hm⟩
  | request hm => exact ⟨_, _, h.request hm⟩
  | receive hm hr =>
    obtain ⟨ph', h'⟩ := h.receive hm hr
    exact ⟨_, _, h'⟩
  | wait hm hl => exact ⟨_, _, h.wait hm hl⟩
  | build hm hi => exact ⟨_, _, h.build hm hi⟩
  | clear hm hi => exact ⟨_, _, h.clear hm hi⟩
  | finish hl hc => exact ⟨_, _, h.finish hl hc⟩
  | selectListener hl hc hb => exact ⟨_, _, h.selectListener hl hb⟩
  | selectClients hl hc hb hr => exact ⟨_, _, h.selectClients hl⟩
  | accept hl ha => exact ⟨_, _, h.accept hl⟩
  | handle hl ha hr => exact h.handle hl hr
  | hangUp hl ha hr hd => exact ⟨_, _, h.hangUp hl hd⟩
  | reply hl =>
    obtain ⟨ph', h'⟩ := h.reply hl
    exact ⟨_, _, h'⟩
  | count hl => exact ⟨_, _, h.count hl⟩
  | rescan hl => exact ⟨_, _, h.rescan hl⟩

/-- Every state of every run is wired. -/
theorem exists_wired {tr : List Empty} {s : State N} (hr : (system S).Run tr s) :
    ∃ ph log, Wired S s ph log := by
  refine hr.invariant (I := fun _ s => ∃ ph log, Wired S s ph log) ?_ ?_
  · rintro s rfl
    exact ⟨_, _, wired_initial S⟩
  · rintro tr s e s' - ⟨ph, log, h⟩ hs
    exact h.step hs

end Bootstrap

end Farlock
