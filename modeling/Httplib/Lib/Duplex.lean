import Httplib.Lib.Machine
import Mathlib.Data.List.Basic

/-!
# Two parties over two wires

A party is a machine that puts frames on a wire and takes frames from another one; some frames carry a
message. `Party.duplex` joins two parties by a wire for each direction, which keeps the order of the
frames. `Party.delivered` says what this is good for: in every state of every run each party is in a
state that it can reach by itself, and what a party has put on its wire is what the other has taken from
it and what is on the wire.
-/

variable {σ τ α β μ ν : Type*}

/-- A party of a conversation. -/
structure Party (σ α : Type*) {μ ν : Type*} (read : μ → Option ν) where
  machine : Machine σ α
  /-- The frames that it has put on its wire. -/
  put : σ → List μ
  /-- The messages that it has got. -/
  got : σ → List ν
  /-- The frames that a step takes from the wire of the other party. -/
  takes : α → List μ
  start : ∀ s, machine.init s → put s = [] ∧ got s = []
  put_prefix : ∀ s a s', machine.step s a = some s' → put s <+: put s'
  got_step : ∀ s a s', machine.step s a = some s' → got s' = got s ++ (takes a).filterMap read

/-- Two parties, and what is on the wires between them. -/
structure Duplex (σ τ μ : Type*) where
  left : σ
  right : τ
  toLeft : List μ := []
  toRight : List μ := []

/-- A step of one of two parties. -/
inductive DuplexEvent (α β : Type*) where
  | left (a : α)
  | right (b : β)
  /-- The first frame on a wire carries no message, and is passed over. -/
  | passLeft
  | passRight
deriving DecidableEq

namespace Party

/-- A wire behind a step that takes some frames from it, none where these are not the first ones. -/
def pull [DecidableEq μ] (frames wire : List μ) : Option (List μ) :=
  if frames <+: wire then some (wire.drop frames.length) else none

/-- A wire whose first frame is passed over. -/
def pass (read : μ → Option ν) : List μ → Option (List μ)
  | [] => none
  | m :: wire => if (read m).isNone then some wire else none

variable {read : μ → Option ν}

/-- A wire behind a step of the party that puts its frames on it. -/
def push (P : Party σ α read) (s s' : σ) (wire : List μ) : List μ :=
  wire ++ (P.put s').drop (P.put s).length

/-- Two parties joined by two wires. -/
def duplex [DecidableEq μ] (P : Party σ α read) (Q : Party τ β read) :
    Machine (Duplex σ τ μ) (DuplexEvent α β) where
  init d := P.machine.init d.left ∧ Q.machine.init d.right ∧ d.toLeft = [] ∧ d.toRight = []
  step d
    | .left a => (P.machine.step d.left a).bind fun s => (pull (P.takes a) d.toLeft).map fun wire =>
        { d with left := s, toLeft := wire, toRight := P.push d.left s d.toRight }
    | .right b => (Q.machine.step d.right b).bind fun t => (pull (Q.takes b) d.toRight).map fun wire =>
        { d with right := t, toRight := wire, toLeft := Q.push d.right t d.toLeft }
    | .passLeft => (pass read d.toLeft).map fun wire => { d with toLeft := wire }
    | .passRight => (pass read d.toRight).map fun wire => { d with toRight := wire }

/-- What has been put on a wire is what has been taken from it, whose messages have been got, and what is
on it. -/
def Carried (read : μ → Option ν) (put wire : List μ) (got : List ν) : Prop :=
  ∃ taken, put = taken ++ wire ∧ got = taken.filterMap read

variable {put put' wire wire' frames : List μ} {got : List ν}

/-- What is put on the wire keeps it carrying. -/
theorem Carried.push (h : Carried read put wire got) (hput : put <+: put') :
    Carried read put' (wire ++ put'.drop put.length) got := by
  obtain ⟨taken, hsplit, hgot⟩ := h
  obtain ⟨more, rfl⟩ := hput
  refine ⟨taken, ?_, hgot⟩
  rw [List.drop_left, ← List.append_assoc, ← hsplit]

/-- What is pulled from it is got. -/
theorem Carried.pull [DecidableEq μ] (h : Carried read put wire got)
    (hpull : Party.pull frames wire = some wire') :
    Carried read put wire' (got ++ frames.filterMap read) := by
  obtain ⟨taken, hsplit, hgot⟩ := h
  obtain ⟨hfirst, heq⟩ := Option.ite_none_right_eq_some.1 hpull
  obtain ⟨rest, rfl⟩ := hfirst
  rw [List.drop_left] at heq
  cases heq
  refine ⟨taken ++ frames, ?_, ?_⟩
  · rw [hsplit, List.append_assoc]
  · rw [hgot, List.filterMap_append]

/-- What passes by was nothing to get. -/
theorem Carried.pass (h : Carried read put wire got) (hpass : Party.pass read wire = some wire') :
    Carried read put wire' got := by
  cases wire with
  | nil => cases hpass
  | cons m wire =>
    obtain ⟨hnone, heq⟩ := Option.ite_none_right_eq_some.1 hpass
    cases heq
    obtain ⟨taken, hsplit, hgot⟩ := h
    refine ⟨taken ++ [m], by rw [hsplit, List.append_assoc]; rfl, ?_⟩
    rw [List.filterMap_append, List.filterMap_cons, Option.isNone_iff_eq_none.1 hnone, hgot]
    exact (List.append_nil _).symm

/-- The messages on a wire are those that were put on it and have not been got. -/
theorem Carried.messages (h : Carried read put wire got) :
    put.filterMap read = got ++ wire.filterMap read := by
  obtain ⟨taken, hsplit, hgot⟩ := h
  rw [hsplit, List.filterMap_append, hgot]

/-- **What is delivered.** The invariant is on the run of the two parties together. -/
theorem delivered [DecidableEq μ] {P : Party σ α read} {Q : Party τ β read} {d : Duplex σ τ μ}
    (h : (P.duplex Q).Reachable d) :
    P.machine.Reachable d.left ∧ Q.machine.Reachable d.right ∧
      Carried read (P.put d.left) d.toRight (Q.got d.right) ∧
      Carried read (Q.put d.right) d.toLeft (P.got d.left) := by
  refine h.invariant (I := fun d => P.machine.Reachable d.left ∧ Q.machine.Reachable d.right ∧
    Carried read (P.put d.left) d.toRight (Q.got d.right) ∧
    Carried read (Q.put d.right) d.toLeft (P.got d.left)) ?_ ?_
  · rintro d ⟨hleft, hright, htoLeft, htoRight⟩
    obtain ⟨hput, hgot⟩ := P.start _ hleft
    obtain ⟨hput', hgot'⟩ := Q.start _ hright
    refine ⟨.init hleft, .init hright, ⟨[], ?_, hgot'⟩, ⟨[], ?_, hgot⟩⟩
    · rw [hput, htoRight]
      rfl
    · rw [hput', htoLeft]
      rfl
  · rintro d event d' ⟨hleft, hright, htoRight, htoLeft⟩ - hstep
    cases event with
    | left a =>
      obtain ⟨s, hs, hwire⟩ := Option.bind_eq_some_iff.1 hstep
      obtain ⟨wire, hpull, rfl⟩ := Option.map_eq_some_iff.1 hwire
      refine ⟨.step hleft trivial hs, hright, htoRight.push (P.put_prefix _ _ _ hs), ?_⟩
      dsimp only
      rw [P.got_step _ _ _ hs]
      exact htoLeft.pull hpull
    | right b =>
      obtain ⟨t, ht, hwire⟩ := Option.bind_eq_some_iff.1 hstep
      obtain ⟨wire, hpull, rfl⟩ := Option.map_eq_some_iff.1 hwire
      refine ⟨hleft, .step hright trivial ht, ?_, htoLeft.push (Q.put_prefix _ _ _ ht)⟩
      dsimp only
      rw [Q.got_step _ _ _ ht]
      exact htoRight.pull hpull
    | passLeft =>
      obtain ⟨wire, hpass, rfl⟩ := Option.map_eq_some_iff.1 hstep
      exact ⟨hleft, hright, htoRight, htoLeft.pass hpass⟩
    | passRight =>
      obtain ⟨wire, hpass, rfl⟩ := Option.map_eq_some_iff.1 hstep
      exact ⟨hleft, hright, htoRight.pass hpass, htoLeft⟩

end Party
