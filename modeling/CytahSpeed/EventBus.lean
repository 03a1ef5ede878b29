import CytahSpeed.Block
import CytahSpeed.StepRun
import Mathlib.Data.Finset.Insert

/-!
# The event bus

Every kind of event has a broadcast channel of its own, created by its first use. The task of
`subscribe_all` works in rounds: it subscribes to all channels there are, waits until one of its
receivers has an event, forwards that one event and drops all the receivers. What is published
while a receiver is missing, or is held beside the forwarded event, is lost. A schedule interleaves
the task's steps with publishers; it loses nothing exactly when every event meets a receiver and is
alone when it is taken.
-/

namespace CytahSpeed
open StepRun

inductive TransactionStatus
  | pending
  | confirmed
  | failed
  deriving DecidableEq

inductive NodeStatus
  | starting
  | running
  | syncing
  | error
  | shuttingDown
  deriving DecidableEq

inductive EventType
  | newBlock (block : Block) (blockHeight : UInt64)
  | newTransaction (transaction : Transaction) (status : TransactionStatus)
  | contractEvent (contractAddress : Address) (eventName : String) (eventData : List UInt8)
      (blockHash : BlockHash) (transactionHash : String)
  | peerConnected (peerId address : String)
  | peerDisconnected (peerId : String) (reason : Option String)
  | nodeStatusChanged (status : NodeStatus)
  deriving DecidableEq

structure Event where
  id : String
  eventType : EventType
  timestamp : UInt64
  sourceNode : String
  deriving DecidableEq

/-- The name of the channel that `publish` chooses. -/
def Event.channel (e : Event) : String :=
  match e.eventType with
  | .newBlock .. => "new_block"
  | .newTransaction .. => "new_transaction"
  | .contractEvent .. => "contract_event"
  | .peerConnected .. => "peer_connected"
  | .peerDisconnected .. => "peer_disconnected"
  | .nodeStatusChanged .. => "node_status"

namespace EventBus

/-- The receiving end of a broadcast channel, which has its capacity of slots, rounded up to a power
of two. A receiver that is sent more than that loses the oldest event, and its next `recv` is an
error. -/
structure Receiver where
  queue : List Event
  lagged : Bool
  deriving DecidableEq

namespace Receiver

def fresh : Receiver := ⟨[], false⟩

def push (slots : ℕ) (e : Event) (r : Receiver) : Receiver :=
  if r.queue.length < slots then { r with queue := r.queue ++ [e] }
  else ⟨(r.queue ++ [e]).drop 1, true⟩

end Receiver

abbrev Named := String × Receiver

/-- Where the forwarding task is in its loop, with the receivers it has. It has ended after a lag,
and after a round without channels, where `select_all` panics. -/
inductive Task
  | locking
  | subscribing (remaining : Finset String) (receivers : List Named)
  | waiting (receivers : List Named)
  | ended

namespace Task

def receivers : Task → List Named
  | .locking => []
  | .subscribing _ receivers => receivers
  | .waiting receivers => receivers
  | .ended => []

def held (t : Task) : List Event := t.receivers.flatMap (·.2.queue)

end Task

/-- An event goes to the receivers of its channel. -/
def deliver (slots : ℕ) (e : Event) (receivers : List Named) : List Named :=
  receivers.map fun p => if p.1 = e.channel then (p.1, p.2.push slots e) else p

def Task.deliver (slots : ℕ) (e : Event) : Task → Task
  | .locking => .locking
  | .subscribing remaining receivers => .subscribing remaining (EventBus.deliver slots e receivers)
  | .waiting receivers => .waiting (EventBus.deliver slots e receivers)
  | .ended => .ended

/-- The channels, the task, the events published since `subscribe_all` returned, and those the task
has forwarded. -/
structure State where
  channels : Finset String
  task : Task
  published : List Event
  forwarded : List Event

def subscribeAll (channels : Finset String) : State := ⟨channels, .locking, [], []⟩

/-- A publisher opens the channel of its event and then sends. The task takes the read lock,
subscribes to one channel after the other, polls its receivers, and takes an event from the first
one that is ready. -/
inductive Step
  | openChannel (name : String)
  | send (e : Event)
  | lock
  | subscribe (name : String)
  | poll
  | take (name : String)

/-- What a poll of the receiver of a channel returns, if it is ready. -/
def ready (receivers : List Named) (name : String) : Option (Except Unit Event) :=
  match receivers.lookup name with
  | some r =>
    if r.lagged then some (.error ())
    else r.queue.head?.map .ok
  | none => none

/-- A step that cannot be taken in a state leaves it as it is: the task's read lock keeps
publishers from opening channels, and a sender belongs to an open channel. -/
def step (slots : ℕ) (s : State) : Step → State
  | .openChannel name =>
    match s.task with
    | .subscribing _ _ => s
    | _ => { s with channels := insert name s.channels }
  | .send e =>
    if e.channel ∈ s.channels then
      { s with task := s.task.deliver slots e, published := s.published ++ [e] }
    else s
  | .lock =>
    match s.task with
    | .locking => { s with task := .subscribing s.channels [] }
    | _ => s
  | .subscribe name =>
    match s.task with
    | .subscribing remaining receivers =>
      if name ∈ remaining then
        { s with task := .subscribing (remaining.erase name) (receivers ++ [(name, .fresh)]) }
      else s
    | _ => s
  | .poll =>
    match s.task with
    | .subscribing remaining receivers =>
      if remaining = ∅ then
        { s with task := if receivers.isEmpty then .ended else .waiting receivers }
      else s
    | _ => s
  | .take name =>
    match s.task with
    | .waiting receivers =>
      match ready receivers name with
      | some (.ok e) => { s with task := .locking, forwarded := s.forwarded ++ [e] }
      | some (.error _) => { s with task := .ended }
      | none => s
    | _ => s

def LosesNothing (s : State) : Prop := s.published.Perm (s.forwarded ++ s.task.held)

/-- A sent event meets a receiver that has room, and an event that is taken is alone. -/
def KeepsEvents (slots : ℕ) (s : State) : Step → Prop
  | .send e => e.channel ∈ s.channels →
      ∃ r, (e.channel, r) ∈ s.task.receivers ∧ r.queue.length < slots
  | .take name => ∀ receivers, s.task = .waiting receivers → (ready receivers name).isSome →
      s.task.held.length = 1
  | _ => True

structure Tidy (t : Task) : Prop where
  nodup : (t.receivers.map Prod.fst).Nodup
  unlagged : ∀ p ∈ t.receivers, p.2.lagged = false
  fresh : ∀ remaining receivers, t = .subscribing remaining receivers →
    ∀ name ∈ remaining, name ∉ receivers.map Prod.fst

variable {slots : ℕ} {s : State} {e : Event} {receivers : List Named} {name : String}

theorem receivers_deliver (t : Task) :
    (t.deliver slots e).receivers = deliver slots e t.receivers := by
  cases t <;> rfl

theorem map_fst_deliver (receivers : List Named) :
    (deliver slots e receivers).map Prod.fst = receivers.map Prod.fst := by
  rw [deliver, List.map_map]
  apply List.map_congr_left
  intro p _
  rw [Function.comp_apply]
  split_ifs <;> rfl

theorem deliver_of_notMem (h : e.channel ∉ receivers.map Prod.fst) :
    deliver slots e receivers = receivers := by
  have hsame : ∀ p ∈ receivers, (if p.1 = e.channel then (p.1, p.2.push slots e) else p) = p := by
    intro p hp
    rw [if_neg]
    intro hname
    exact h (hname ▸ List.mem_map_of_mem hp)
  rw [deliver, List.map_congr_left hsame, List.map_id']

theorem step_send_of_open (h : e.channel ∈ s.channels) :
    step slots s (.send e) =
      { s with task := s.task.deliver slots e, published := s.published ++ [e] } :=
  if_pos h

theorem step_send_of_closed (h : e.channel ∉ s.channels) : step slots s (.send e) = s :=
  if_neg h

theorem queue_push_of_room {r : Receiver} (h : r.queue.length < slots) :
    (r.push slots e).queue = r.queue ++ [e] := by
  rw [Receiver.push, if_pos h]

theorem length_push_of_full {r : Receiver} (h : ¬ r.queue.length < slots) :
    (r.push slots e).queue.length = r.queue.length := by
  rw [Receiver.push, if_neg h, List.length_drop, List.length_append, List.length_singleton]
  omega

theorem held_deliver_of_room {r : Receiver} (hnodup : (receivers.map Prod.fst).Nodup)
    (hmem : (e.channel, r) ∈ receivers) (hroom : r.queue.length < slots) :
    ((deliver slots e receivers).flatMap (·.2.queue)).Perm
      (receivers.flatMap (·.2.queue) ++ [e]) := by
  induction receivers with
  | nil => cases hmem
  | cons p rest ih =>
    obtain ⟨hnot, hrest⟩ := List.nodup_cons.mp hnodup
    by_cases hname : p.1 = e.channel
    · have hp : p = (e.channel, r) := by
        rcases List.mem_cons.mp hmem with h | h
        · exact h.symm
        · exact absurd (hname ▸ List.mem_map_of_mem h) hnot
      have hrest : deliver slots e rest = rest := deliver_of_notMem (hname ▸ hnot)
      have hcons : deliver slots e (p :: rest) = (e.channel, r.push slots e) :: rest := by
        rw [deliver, List.map_cons, ← deliver, hrest, hp, if_pos rfl]
      rw [hcons, hp, List.flatMap_cons, List.flatMap_cons, queue_push_of_room hroom,
        List.append_assoc, List.append_assoc]
      exact List.Perm.append_left _ List.perm_append_comm
    · have hmem' : (e.channel, r) ∈ rest := by
        rcases List.mem_cons.mp hmem with h | h
        · exact absurd (congrArg Prod.fst h).symm hname
        · exact h
      have hcons : deliver slots e (p :: rest) = p :: deliver slots e rest := by
        rw [deliver, List.map_cons, if_neg hname, ← deliver]
      rw [hcons, List.flatMap_cons, List.flatMap_cons, List.append_assoc]
      exact List.Perm.append_left _ (ih hrest hmem')

theorem length_held_deliver (h : ∀ r, (e.channel, r) ∈ receivers → ¬ r.queue.length < slots) :
    ((deliver slots e receivers).flatMap (·.2.queue)).length =
      (receivers.flatMap (·.2.queue)).length := by
  induction receivers with
  | nil => rfl
  | cons p rest ih =>
    have hrest := ih fun r hr => h r (List.mem_cons_of_mem _ hr)
    unfold deliver at hrest ⊢
    rw [List.map_cons, List.flatMap_cons, List.flatMap_cons, List.length_append,
      List.length_append, hrest]
    congr 1
    by_cases hname : p.1 = e.channel
    · rw [if_pos hname]
      exact length_push_of_full (h p.2 (hname ▸ List.mem_cons_self))
    · rw [if_neg hname]

theorem send_iff (htidy : Tidy s.task) (hs : LosesNothing s) :
    LosesNothing (step slots s (.send e)) ↔ KeepsEvents slots s (.send e) := by
  have hkeeps : KeepsEvents slots s (.send e) ↔ (e.channel ∈ s.channels →
      ∃ r, (e.channel, r) ∈ s.task.receivers ∧ r.queue.length < slots) := Iff.rfl
  rw [hkeeps]
  by_cases hopen : e.channel ∈ s.channels
  · rw [forall_prop_of_true hopen, step_send_of_open hopen]
    unfold LosesNothing Task.held at hs ⊢
    rw [receivers_deliver]
    constructor
    · intro hafter
      by_contra hnone
      push Not at hnone
      have hheld : ((deliver slots e s.task.receivers).flatMap (·.2.queue)).length = _ :=
        length_held_deliver fun r hr => Nat.not_lt_of_le (hnone r hr)
      have hbefore := hs.length_eq
      have hlen := hafter.length_eq
      simp only [List.length_append, List.length_singleton] at hbefore hlen
      omega
    · rintro ⟨r, hmem, hroom⟩
      have hheld := held_deliver_of_room htidy.nodup hmem hroom
      refine (hs.append_right [e]).trans ?_
      rw [List.append_assoc]
      exact List.Perm.append_left _ hheld.symm
  · rw [step_send_of_closed hopen]
    exact iff_of_true hs (fun h => absurd h hopen)

theorem mem_receivers_of_ready {x : Except Unit Event} (h : ready receivers name = some x) :
    ∃ r, (name, r) ∈ receivers ∧
      (if r.lagged then some (.error ()) else r.queue.head?.map .ok) = some x := by
  unfold ready at h
  cases hlookup : receivers.lookup name with
  | none =>
    rw [hlookup] at h
    cases h
  | some r =>
    rw [hlookup] at h
    obtain ⟨before, after, rfl, -⟩ := List.lookup_eq_some_iff.mp hlookup
    exact ⟨r, List.mem_append_right _ List.mem_cons_self, h⟩

theorem ready_of_unlagged {x : Except Unit Event} (h : ready receivers name = some x)
    (hlag : ∀ p ∈ receivers, p.2.lagged = false) :
    ∃ e, x = .ok e ∧ e ∈ receivers.flatMap (·.2.queue) := by
  obtain ⟨r, hmem, hr⟩ := mem_receivers_of_ready h
  rw [hlag _ hmem, if_neg Bool.false_ne_true] at hr
  obtain ⟨e, hhead, rfl⟩ := Option.map_eq_some_iff.mp hr
  exact ⟨e, rfl, List.mem_flatMap.mpr ⟨_, hmem, List.mem_of_head? hhead⟩⟩

theorem take_iff (htidy : Tidy s.task) (hs : LosesNothing s) :
    LosesNothing (step slots s (.take name)) ↔ KeepsEvents slots s (.take name) := by
  have hkeeps : KeepsEvents slots s (.take name) ↔ (∀ receivers, s.task = .waiting receivers →
      (ready receivers name).isSome → s.task.held.length = 1) := Iff.rfl
  rw [hkeeps]
  obtain ⟨channels, task, published, forwarded⟩ := s
  cases task with
  | locking | subscribing | ended => exact iff_of_true hs fun _ h => by cases h
  | waiting receivers =>
    cases hready : ready receivers name with
    | none =>
      have hsame : step slots ⟨channels, .waiting receivers, published, forwarded⟩ (.take name) =
          ⟨channels, .waiting receivers, published, forwarded⟩ := by
        simp only [step, hready]
      rw [hsame]
      refine iff_of_true hs ?_
      rintro _ ⟨⟩ h
      rw [hready] at h
      cases h
    | some x =>
      obtain ⟨e, rfl, he⟩ := ready_of_unlagged hready htidy.unlagged
      have hstep : step slots ⟨channels, .waiting receivers, published, forwarded⟩ (.take name) =
          ⟨channels, .locking, published, forwarded ++ [e]⟩ := by
        simp only [step, hready]
      have hheld : (Task.waiting receivers).held = receivers.flatMap (·.2.queue) := rfl
      have hbefore : published.Perm (forwarded ++ receivers.flatMap (·.2.queue)) := hs
      rw [hstep]
      constructor
      · intro hafter _ _ _
        have hlen := hafter.length_eq
        have hlen' := hbefore.length_eq
        simp only [Task.held, Task.receivers, List.flatMap_nil, List.append_nil,
          List.length_append, List.length_singleton] at hlen hlen' ⊢
        omega
      · intro hone
        have hlen := hone receivers rfl (by rw [hready]; rfl)
        dsimp only at hlen
        rw [hheld] at hlen
        obtain ⟨e', he'⟩ := List.length_eq_one_iff.mp hlen
        rw [he', List.mem_singleton] at he
        rw [he', ← he] at hbefore
        unfold LosesNothing
        rwa [Task.held, Task.receivers, List.flatMap_nil, List.append_nil]

theorem losesNothing_iff (htidy : Tidy s.task) (hs : LosesNothing s) (a : Step) :
    LosesNothing (step slots s a) ↔ KeepsEvents slots s a := by
  obtain ⟨channels, task, published, forwarded⟩ := s
  cases a with
  | send e => exact send_iff htidy hs
  | take name => exact take_iff htidy hs
  | openChannel name | lock =>
    refine iff_of_true ?_ trivial
    cases task <;> exact hs
  | subscribe name =>
    refine iff_of_true ?_ trivial
    cases task with
    | locking | waiting | ended => exact hs
    | subscribing remaining receivers =>
      by_cases hname : name ∈ remaining
      · simpa only [step, if_pos hname, LosesNothing, Task.held, Task.receivers,
          List.flatMap_append, List.flatMap_singleton, Receiver.fresh, List.append_nil] using hs
      · simpa only [step, if_neg hname] using hs
  | poll =>
    refine iff_of_true ?_ trivial
    cases task with
    | locking | waiting | ended => exact hs
    | subscribing remaining receivers =>
      by_cases hdone : remaining = ∅
      · simp only [step, if_pos hdone]
        cases receivers <;> exact hs
      · simpa only [step, if_neg hdone] using hs

theorem tidy_of_receivers_nil {t : Task} (h : t.receivers = []) : Tidy t where
  nodup := by rw [h]; exact List.nodup_nil
  unlagged := by
    intro p hp
    rw [h] at hp
    cases hp
  fresh := by
    rintro remaining receivers rfl name -
    rw [Task.receivers] at h
    rw [h]
    exact List.not_mem_nil

theorem Tidy.deliver {t : Task} (htidy : Tidy t)
    (h : ∃ r, (e.channel, r) ∈ t.receivers ∧ r.queue.length < slots) :
    Tidy (t.deliver slots e) where
  nodup := by
    rw [receivers_deliver, map_fst_deliver]
    exact htidy.nodup
  unlagged := by
    intro p hp
    rw [receivers_deliver] at hp
    obtain ⟨q, hq, rfl⟩ := List.mem_map.mp hp
    by_cases hname : q.1 = e.channel
    · obtain ⟨r, hr, hroom⟩ := h
      -- the receiver of the channel is the one that has room
      have hsame : q = (e.channel, r) := List.inj_on_of_nodup_map htidy.nodup hq hr hname
      have hlag : r.lagged = false := htidy.unlagged _ hr
      rw [if_pos hname, hsame, Receiver.push, if_pos hroom]
      exact hlag
    · rw [if_neg hname]
      exact htidy.unlagged _ hq
  fresh := by
    intro remaining receivers ht name hname
    cases t with
    | locking | waiting | ended => cases ht
    | subscribing remaining' receivers' =>
      cases ht
      rw [map_fst_deliver]
      exact htidy.fresh _ _ rfl name hname

theorem Tidy.subscribe {remaining : Finset String}
    (htidy : Tidy (.subscribing remaining receivers)) (h : name ∈ remaining) :
    Tidy (.subscribing (remaining.erase name) (receivers ++ [(name, .fresh)])) where
  nodup := by
    rw [Task.receivers, List.map_append, List.map_singleton, ← List.concat_eq_append]
    exact htidy.nodup.concat (htidy.fresh _ _ rfl name h)
  unlagged := by
    intro p hp
    rcases List.mem_append.mp hp with hp | hp
    · exact htidy.unlagged p hp
    · rw [List.mem_singleton.mp hp]
      rfl
  fresh := by
    rintro _ _ ⟨⟩ other hother hmem
    obtain ⟨hne, hother⟩ := Finset.mem_erase.mp hother
    rw [List.map_append, List.mem_append] at hmem
    rcases hmem with hmem | hmem
    · exact htidy.fresh _ _ rfl other hother hmem
    · exact hne (List.mem_singleton.mp hmem)

theorem Tidy.step (htidy : Tidy s.task) {a : Step} (h : KeepsEvents slots s a) :
    Tidy (EventBus.step slots s a).task := by
  obtain ⟨channels, task, published, forwarded⟩ := s
  cases a with
  | openChannel name => cases task <;> exact htidy
  | lock =>
    cases task with
    | locking => exact tidy_of_receivers_nil rfl
    | subscribing | waiting | ended => exact htidy
  | send e =>
    by_cases hopen : e.channel ∈ channels
    · rw [step_send_of_open hopen]
      exact htidy.deliver (h hopen)
    · rw [step_send_of_closed hopen]
      exact htidy
  | subscribe name =>
    cases task with
    | locking | waiting | ended => exact htidy
    | subscribing remaining receivers =>
      by_cases hname : name ∈ remaining
      · simpa only [EventBus.step, if_pos hname] using htidy.subscribe hname
      · simpa only [EventBus.step, if_neg hname] using htidy
  | poll =>
    cases task with
    | locking | waiting | ended => exact htidy
    | subscribing remaining receivers =>
      by_cases hdone : remaining = ∅
      · simp only [EventBus.step, if_pos hdone]
        cases receivers with
        | nil => exact tidy_of_receivers_nil rfl
        | cons p rest => exact ⟨htidy.nodup, htidy.unlagged, fun _ _ h => by cases h⟩
      · simpa only [EventBus.step, if_neg hdone] using htidy
  | take name =>
    cases task with
    | locking | subscribing | ended => exact htidy
    | waiting receivers =>
      cases hready : ready receivers name with
      | none => simpa only [EventBus.step, hready] using htidy
      | some x =>
        cases x <;> simpa only [EventBus.step, hready] using tidy_of_receivers_nil rfl

/-- What one step keeps: nothing is lost, and the receivers are tidy. -/
def Sound (s : State) : Prop := LosesNothing s ∧ Tidy s.task

theorem sound_subscribeAll (channels : Finset String) : Sound (subscribeAll channels) :=
  ⟨List.Perm.nil, tidy_of_receivers_nil rfl⟩

theorem Sound.step (hs : Sound s) {a : Step} (h : LosesNothing (EventBus.step slots s a)) :
    Sound (EventBus.step slots s a) :=
  ⟨h, hs.2.step ((losesNothing_iff hs.2 hs.1 a).mp h)⟩

/-- A schedule loses nothing exactly as long as every event meets a receiver with room, and every
event that is taken is alone. -/
theorem subscribe_all_iff (slots : ℕ) (channels : Finset String) (steps : List Step) :
    Along (step slots) (fun s a => LosesNothing (step slots s a)) (subscribeAll channels) steps ↔
      Along (step slots) (KeepsEvents slots) (subscribeAll channels) steps :=
  along_iff_of_invariant (sound_subscribeAll channels) (fun _ _ hs h => hs.step h)
    (fun _ a hs => losesNothing_iff hs.2 hs.1 a) steps

/-- Fewer events than the capacity are outstanding on every channel. -/
def Uncrowded (capacity : ℕ) (s : State) : Prop :=
  ∀ name, (s.published.filter (·.channel = name)).length <
    (s.forwarded.filter (·.channel = name)).length + capacity

theorem length_published_step (s : State) (a : Step) :
    (step slots s a).published.length ≤ s.published.length + 1 := by
  obtain ⟨channels, task, published, forwarded⟩ := s
  cases a <;> unfold step <;> dsimp only
  case send e =>
    split_ifs
    · exact List.length_append.le
    · exact Nat.le_succ _
  all_goals
    split <;> (try split) <;> exact Nat.le_succ _

theorem uncrowded_of_length_lt {capacity : ℕ} (h : s.published.length < capacity) :
    Uncrowded capacity s := by
  intro name
  have hfilter := List.length_filter_le (fun e : Event => e.channel = name) s.published
  omega

theorem along_uncrowded {capacity : ℕ} (steps : List Step)
    (h : s.published.length + steps.length < capacity) :
    Along (step slots) (fun s a => Uncrowded capacity (step slots s a)) s steps := by
  induction steps generalizing s with
  | nil => exact trivial
  | cons a steps ih =>
    rw [List.length_cons] at h
    have hgrow : (step slots s a).published.length ≤ _ := length_published_step s a
    exact ⟨uncrowded_of_length_lt (by omega), ih (by omega)⟩

def samplePeer : Event :=
  ⟨"first", .peerConnected "peer" "10.0.0.1:9000", 1, "node"⟩

/-- An event that is published between two rounds of the task meets no receiver. -/
theorem second_event_lost :
    ¬ ∀ capacity slots channels steps, capacity ≤ slots →
      Along (step slots) (fun s a => Uncrowded capacity (step slots s a))
        (subscribeAll channels) steps →
      Along (step slots) (fun s a => LosesNothing (step slots s a))
        (subscribeAll channels) steps := by
  intro h
  have hrun := h 1000 1024 {"peer_connected"} [.lock, .subscribe "peer_connected", .poll,
    .send samplePeer, .take "peer_connected", .send { samplePeer with id := "second" }]
    (by omega) (along_uncrowded _ (by decide))
  obtain ⟨-, -, -, -, -, hlast, -⟩ := hrun
  exact absurd hlast.length_eq (by decide)

end EventBus
end CytahSpeed
