import Farlock.Lib.Peterson

/-!
# What can be seen of a lock

A run of a lock shows as a list of events.  The handlers of a lock fall into two classes, those on
the lock's own node (`Side.loc`) and the others (`Side.rem`); an *acquisition* is named by its class
and its place, which counts the tail exchanges of that class from `0`.  Every event belongs to the
latest acquisition of its handler.

* `Side`, `Event`;
* `stamp`: the events of a run, each with the place of its acquisition;
* `draws`, `hands`, `lowers`, `entries`, `advances`, `leaves`: the acquisitions that have come to a
  certain point, in the order in which they did;
* `InBatch`: the acquisitions that were handed the ticket of the `i`-th draw.
-/

namespace Farlock

/-- The class of a handler with respect to a lock: on the lock's node, or on another one. -/
inductive Side
  | loc
  | rem
  deriving DecidableEq, Repr

instance : TwoParty Side where
  other
    | .loc => .rem
    | .rem => .loc
  other_ne p := by cases p <;> decide
  eq_or_other p q := by cases p <;> cases q <;> decide

@[simp] theorem other_loc : TwoParty.other Side.loc = Side.rem := rfl
@[simp] theorem other_rem : TwoParty.other Side.rem = Side.loc := rfl

/-- What an onlooker sees of a handler `h` of class `c`; `W` is the type of tickets. -/
inductive Event (H W : Type)
  /-- the tail exchange -/
  | arrive (c : Side) (h : H)
  /-- the flag store at the start of `LockPetersons` -/
  | raise (c : Side) (h : H)
  /-- the victim store: the request for the section is complete -/
  | request (c : Side) (h : H)
  /-- a completed fetch-and-add on the next ticket, which returned `t` -/
  | draw (c : Side) (h : H) (t : W)
  /-- the section and the ticket go to the successor -/
  | hand (c : Side) (h : H)
  /-- the flag store of `UnlockPetersons` -/
  | lower (c : Side) (h : H)
  /-- `Lock` returns; the acquisition runs under ticket `t` -/
  | enter (c : Side) (h : H) (t : W)
  /-- the current ticket is set to `t` -/
  | advance (c : Side) (h : H) (t : W)
  /-- the last step of `Unlock` -/
  | leave (c : Side) (h : H)
  deriving DecidableEq, Repr

/-- The same event with another kind of ticket. -/
def Event.map {H W V : Type} (f : W → V) : Event H W → Event H V
  | .arrive c h => .arrive c h
  | .raise c h => .raise c h
  | .request c h => .request c h
  | .draw c h t => .draw c h (f t)
  | .hand c h => .hand c h
  | .lower c h => .lower c h
  | .enter c h t => .enter c h (f t)
  | .advance c h t => .advance c h (f t)
  | .leave c h => .leave c h

variable {H W V : Type}

namespace Event

/-- The handler that makes the step. -/
def who : Event H W → H
  | .arrive _ h => h
  | .raise _ h => h
  | .request _ h => h
  | .draw _ h _ => h
  | .hand _ h => h
  | .lower _ h => h
  | .enter _ h _ => h
  | .advance _ h _ => h
  | .leave _ h => h

/-- Its class. -/
def side : Event H W → Side
  | .arrive c _ => c
  | .raise c _ => c
  | .request c _ => c
  | .draw c _ _ => c
  | .hand c _ => c
  | .lower c _ => c
  | .enter c _ _ => c
  | .advance c _ _ => c
  | .leave c _ => c

@[simp] theorem who_map (f : W → V) (e : Event H W) : (e.map f).who = e.who := by cases e <;> rfl
@[simp] theorem side_map (f : W → V) (e : Event H W) : (e.map f).side = e.side := by cases e <;> rfl

end Event

/-! ### Places -/

/-- The number of tail exchanges of each class so far, and the place of each handler's latest
acquisition. -/
structure Register (H : Type) where
  arrived : Side → ℕ := fun _ => 0
  place : H → ℕ := fun _ => 0

variable [DecidableEq H]

/-- A tail exchange takes the next place of its class. -/
def Register.next (r : Register H) : Event H W → Register H
  | .arrive c h =>
      { arrived := Function.update r.arrived c (r.arrived c + 1)
        place := Function.update r.place h (r.arrived c) }
  | _ => r

/-- The register after a list of events. -/
def register (L : List (Event H W)) : Register H := L.foldl Register.next {}

/-- The events from register `r` on, each with the place of its acquisition. -/
def stampFrom (r : Register H) : List (Event H W) → List (ℕ × Event H W)
  | [] => []
  | e :: L => ((r.next e).place e.who, e) :: stampFrom (r.next e) L

/-- The events of a run, each with the place of its acquisition. -/
def stamp (L : List (Event H W)) : List (ℕ × Event H W) := stampFrom {} L

theorem stampFrom_append (r : Register H) (L L' : List (Event H W)) :
    stampFrom r (L ++ L') = stampFrom r L ++ stampFrom (L.foldl Register.next r) L' := by
  induction L generalizing r with
  | nil => rfl
  | cons e L ih => simp [stampFrom, ih]

theorem map_stampFrom (r : Register H) (L : List (Event H W)) :
    (stampFrom r L).map (·.2) = L := by
  induction L generalizing r with
  | nil => rfl
  | cons e L ih => simp [stampFrom, ih]

/-- An event of the second part of a run that is not in the first. -/
theorem mem_of_mem_stamp {L L' : List (Event H W)} {p : ℕ} {e : Event H W}
    (h : (p, e) ∈ stamp (L ++ L')) (hL : (p, e) ∉ stamp L) : e ∈ L' := by
  rw [stamp, stampFrom_append, List.mem_append] at h
  have hmem := List.mem_map_of_mem (f := (·.2)) (h.resolve_left hL)
  rwa [map_stampFrom] at hmem

theorem stamp_snoc (L : List (Event H W)) (e : Event H W) :
    stamp (L ++ [e]) = stamp L ++ [((register (L ++ [e])).place e.who, e)] := by
  simp [stamp, stampFrom_append, stampFrom, register]

theorem register_snoc (L : List (Event H W)) (e : Event H W) :
    register (L ++ [e]) = (register L).next e := by
  simp [register]

/-! ### The acquisitions that have come to a certain point -/

/-- The acquisitions that went through an event selected by `sel`, in order: class, place and
ticket. -/
def timed (sel : Event H W → Option W) (L : List (Event H W)) : List (Side × ℕ × W) :=
  (stamp L).filterMap fun x => (sel x.2).map fun t => (x.2.side, x.1, t)

/-- The acquisitions that went through an event selected by `sel`, in order: class and place. -/
def marks (sel : Event H W → Bool) (L : List (Event H W)) : List (Side × ℕ) :=
  (stamp L).filterMap fun x => if sel x.2 then some (x.2.side, x.1) else none

namespace Event

/-- The ticket returned by a fetch-and-add on the next ticket. -/
def drawn : Event H W → Option W
  | .draw _ _ t => some t
  | _ => none

/-- The ticket of an entry into the critical section. -/
def entered : Event H W → Option W
  | .enter _ _ t => some t
  | _ => none

/-- The new value of the current ticket. -/
def advanced : Event H W → Option W
  | .advance _ _ t => some t
  | _ => none

/-- A hand-over of the section and the ticket. -/
def isHand : Event H W → Bool
  | .hand _ _ => true
  | _ => false

/-- A flag store of `UnlockPetersons`. -/
def isLower : Event H W → Bool
  | .lower _ _ => true
  | _ => false

/-- A last step of `Unlock`. -/
def isLeave : Event H W → Bool
  | .leave _ _ => true
  | _ => false

end Event

/-- The completed fetch-and-adds on the next ticket, with the returned tickets. -/
def draws (L : List (Event H W)) : List (Side × ℕ × W) := timed Event.drawn L

/-- The entries into the critical section, with the tickets they are made under. -/
def entries (L : List (Event H W)) : List (Side × ℕ × W) := timed Event.entered L

/-- The places of the acquisitions of class `c` that have entered, in the order of entry. -/
def entryOrder (c : Side) (L : List (Event H W)) : List ℕ :=
  ((entries L).filter fun x => x.1 = c).map (·.2.1)

/-- The updates of the current ticket, with its new values. -/
def advances (L : List (Event H W)) : List (Side × ℕ × W) := timed Event.advanced L

/-- The acquisitions that have handed the section and the ticket to their successor. -/
def hands (L : List (Event H W)) : List (Side × ℕ) := marks Event.isHand L

/-- The acquisitions that have run `UnlockPetersons`. -/
def lowers (L : List (Event H W)) : List (Side × ℕ) := marks Event.isLower L

/-- The acquisitions that have left their queue. -/
def leaves (L : List (Event H W)) : List (Side × ℕ) := marks Event.isLeave L

/-- The acquisition at place `p` of class `c` runs under the ticket of the `i`-th draw: it made that
draw, or the ticket was handed along the queue to it. -/
def InBatch (L : List (Event H W)) (i : ℕ) (c : Side) (p : ℕ) : Prop :=
  ∃ p0 t, (draws L)[i]? = some (c, p0, t) ∧ p0 ≤ p ∧ ∀ q, p0 ≤ q → q < p → (c, q) ∈ hands L

section Lists

variable {L : List (Event H W)} {c : Side} {p : ℕ} {t : W}

theorem mem_timed {sel : Event H W → Option W} :
    (c, p, t) ∈ timed sel L ↔ ∃ e, (p, e) ∈ stamp L ∧ e.side = c ∧ sel e = some t := by
  simp only [timed, List.mem_filterMap, Option.map_eq_some_iff, Prod.exists, Prod.mk.injEq]
  constructor
  · rintro ⟨q, e, hmem, t', hsel, hc, rfl, rfl⟩
    exact ⟨e, hmem, hc, hsel⟩
  · rintro ⟨e, hmem, hc, hsel⟩
    exact ⟨p, e, hmem, t, hsel, hc, rfl, rfl⟩

theorem mem_marks {sel : Event H W → Bool} :
    (c, p) ∈ marks sel L ↔ ∃ e, (p, e) ∈ stamp L ∧ e.side = c ∧ sel e = true := by
  simp only [marks, List.mem_filterMap, Option.ite_none_right_eq_some, Option.some.injEq,
    Prod.exists, Prod.mk.injEq]
  constructor
  · rintro ⟨q, e, hmem, hsel, hc, rfl⟩
    exact ⟨e, hmem, hc, hsel⟩
  · rintro ⟨e, hmem, hc, hsel⟩
    exact ⟨p, e, hmem, hsel, hc, rfl⟩

/-- The tickets of the selected events do not depend on the places. -/
theorem map_timed (sel : Event H W → Option W) (L : List (Event H W)) :
    (timed sel L).map (·.2.2) = L.filterMap sel := by
  have key : ∀ r : Register H, ((stampFrom r L).filterMap fun x => (sel x.2).map fun t =>
      (x.2.side, x.1, t)).map (·.2.2) = L.filterMap sel := by
    induction L with
    | nil => exact fun _ => rfl
    | cons e L ih =>
      intro r
      cases hsel : sel e with
      | none => simpa [stampFrom, hsel] using ih _
      | some t => simpa [stampFrom, hsel] using ih _
  exact key {}

theorem timed_prefix (sel : Event H W → Option W) (L L' : List (Event H W)) :
    timed sel L <+: timed sel (L ++ L') := by
  rw [timed, timed, stamp, stamp, stampFrom_append, List.filterMap_append]
  exact List.prefix_append _ _

/-- One more event. -/
theorem timed_snoc (sel : Event H W → Option W) (L : List (Event H W)) (e : Event H W) :
    timed sel (L ++ [e]) = timed sel L ++
      ((sel e).map fun t => (e.side, (register (L ++ [e])).place e.who, t)).toList := by
  rw [timed, stamp_snoc, List.filterMap_append, timed]
  cases h : sel e <;> simp [h]

end Lists

/-! ### Another kind of ticket -/

@[simp] theorem Register.next_map (f : W → V) (r : Register H) (e : Event H W) :
    r.next (e.map f) = r.next e := by
  cases e <;> rfl

theorem register_map (f : W → V) (L : List (Event H W)) :
    register (L.map (Event.map f)) = register L := by
  simp [register, List.foldl_map]

theorem stampFrom_map (f : W → V) (r : Register H) (L : List (Event H W)) :
    stampFrom r (L.map (Event.map f)) = (stampFrom r L).map (Prod.map id (Event.map f)) := by
  induction L generalizing r with
  | nil => rfl
  | cons e L ih => simp [stampFrom, ih]

/-- The same acquisition with another kind of ticket. -/
def mapTicket (f : W → V) (x : Side × ℕ × W) : Side × ℕ × V := (x.1, x.2.1, f x.2.2)

section Map

variable (f : W → V) (L : List (Event H W))

theorem timed_map {sel : Event H W → Option W} {sel' : Event H V → Option V}
    (hsel : ∀ e, sel' (e.map f) = (sel e).map f) :
    timed sel' (L.map (Event.map f)) = (timed sel L).map (mapTicket f) := by
  rw [timed, timed, stamp, stampFrom_map, List.filterMap_map, List.map_filterMap]
  congr 1
  funext ⟨p, e⟩
  cases h : sel e <;> simp [hsel, h, mapTicket]

theorem marks_map {sel : Event H W → Bool} {sel' : Event H V → Bool}
    (hsel : ∀ e, sel' (e.map f) = sel e) : marks sel' (L.map (Event.map f)) = marks sel L := by
  rw [marks, marks, stamp, stampFrom_map, List.filterMap_map]
  congr 1
  funext ⟨p, e⟩
  simp [hsel]

theorem draws_map : draws (L.map (Event.map f)) = (draws L).map (mapTicket f) :=
  timed_map f L fun e => by cases e <;> rfl

theorem entries_map : entries (L.map (Event.map f)) = (entries L).map (mapTicket f) :=
  timed_map f L fun e => by cases e <;> rfl

theorem entryOrder_map (c : Side) : entryOrder c (L.map (Event.map f)) = entryOrder c L := by
  simp only [entryOrder, entries_map, List.filter_map, List.map_map]
  rfl

theorem advances_map : advances (L.map (Event.map f)) = (advances L).map (mapTicket f) :=
  timed_map f L fun e => by cases e <;> rfl

theorem hands_map : hands (L.map (Event.map f)) = hands L :=
  marks_map f L fun e => by cases e <;> rfl

theorem lowers_map : lowers (L.map (Event.map f)) = lowers L :=
  marks_map f L fun e => by cases e <;> rfl

theorem leaves_map : leaves (L.map (Event.map f)) = leaves L :=
  marks_map f L fun e => by cases e <;> rfl

theorem inBatch_map {i : ℕ} {c : Side} {p : ℕ} :
    InBatch (L.map (Event.map f)) i c p ↔ InBatch L i c p := by
  simp only [InBatch, draws_map, hands_map, List.getElem?_map, Option.map_eq_some_iff, mapTicket]
  constructor
  · rintro ⟨p0, t, ⟨⟨c', p', t'⟩, hi, heq⟩, hrest⟩
    simp only [Prod.mk.injEq] at heq
    obtain ⟨rfl, rfl, -⟩ := heq
    exact ⟨p', t', hi, hrest⟩
  · rintro ⟨p0, t, hi, hrest⟩
    exact ⟨p0, f t, ⟨_, hi, rfl⟩, hrest⟩

end Map

end Farlock
