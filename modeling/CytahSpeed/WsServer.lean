import CytahSpeed.EventBus

/-!
# The WebSocket server

A connection to the blocks or the transactions subscribes to one channel of the event bus and passes
its events on, between answers to pings. It reads its receiver only while it is open, and an error
of the receiver ends it: a client that falls behind by more than the channel holds is cut off
rather than served with a gap.
-/

namespace CytahSpeed
open StepRun EventBus

inductive WsMessage
  | pong
  | event (e : Event)
  deriving DecidableEq

/-- What comes in on a connection, by what the server does about it: any other text or message is
passed over, and so is the end of the stream. -/
inductive Incoming
  | ping
  | other
  | close
  | error

structure Socket where
  channel : String
  receiver : Receiver
  isOpen : Bool
  sent : List WsMessage

namespace Socket

def subscribe (channel : String) : Socket := ⟨channel, .fresh, true, []⟩

/-- An event is published, a message comes in, or the loop turns to the receiver. The client takes
what is sent to it or the send fails. -/
inductive Step
  | publish (e : Event)
  | message (m : Incoming) (takes : Bool)
  | receive (takes : Bool)

/-- A failed answer to a ping is passed over, and so is an event that has no JSON text. An event
that the client does not take ends the connection. -/
def step (writes : Event → Bool) (slots : ℕ) (s : Socket) : Step → Socket
  | .publish e =>
    if s.isOpen && s.channel = e.channel then { s with receiver := s.receiver.push slots e } else s
  | .message .ping takes =>
    if s.isOpen && takes then { s with sent := s.sent ++ [.pong] } else s
  | .message .other _ => s
  | .message .close _ | .message .error _ => { s with isOpen := false }
  | .receive takes =>
    if ! s.isOpen then s
    else if s.receiver.lagged then { s with isOpen := false }
    else
      match s.receiver.queue with
      | [] => s
      | e :: queue =>
        if ! writes e then { s with receiver := { s.receiver with queue } }
        else if takes then
          { s with receiver := { s.receiver with queue }, sent := s.sent ++ [.event e] }
        else { s with isOpen := false }

def events (s : Socket) : List Event :=
  s.sent.filterMap fun
    | .event e => some e
    | .pong => none

def published (channel : String) (steps : List Step) : List Event :=
  steps.filterMap fun
    | .publish e => if e.channel = channel then some e else none
    | _ => none

/-- What a connection has sent is the beginning of what was published and has a JSON text, and while
it is open there is nothing more to come than its receiver holds, unless it has fallen behind. -/
structure Gapless (writes : Event → Bool) (slots : ℕ) (s : Socket) (published : List Event) :
    Prop where
  beginning : s.events <+: published.filter writes
  held : s.isOpen = true → s.receiver.lagged = false →
    s.events ++ s.receiver.queue.filter writes = published.filter writes
  counted : s.isOpen = true → s.receiver.lagged = false →
    s.events.length + s.receiver.queue.length ≤ published.length
  behind : s.isOpen = true → s.receiver.lagged = true → s.events.length + slots < published.length
  length_le : s.receiver.queue.length ≤ slots

variable {writes : Event → Bool} {slots : ℕ} {s : Socket} {published : List Event}

theorem gapless_subscribe (writes : Event → Bool) (slots : ℕ) (channel : String) :
    Gapless writes slots (subscribe channel) [] where
  beginning := List.nil_prefix
  held _ _ := rfl
  counted _ _ := Nat.zero_le _
  behind _ h := by cases h
  length_le := Nat.zero_le _

theorem Gapless.close (h : Gapless writes slots s published) :
    Gapless writes slots { s with isOpen := false } published where
  beginning := h.beginning
  held hopen _ := by cases hopen
  counted hopen _ := by cases hopen
  behind hopen _ := by cases hopen
  length_le := h.length_le

theorem Gapless.beginning_append (h : Gapless writes slots s published) (later : List Event) :
    s.events <+: (published ++ later).filter writes := by
  rw [List.filter_append]
  exact h.beginning.trans (List.prefix_append _ _)

theorem Gapless.push_of_room (h : Gapless writes slots s published) (e : Event)
    (hopen : s.isOpen = true) (hroom : s.receiver.queue.length < slots) :
    Gapless writes slots
      { s with receiver := { s.receiver with queue := s.receiver.queue ++ [e] } }
      (published ++ [e]) := by
  refine ⟨h.beginning_append [e], ?_, ?_, ?_, ?_⟩
  · intro _ hlag
    change s.events ++ (s.receiver.queue ++ [e]).filter writes = _
    rw [List.filter_append, ← List.append_assoc, h.held hopen hlag, List.filter_append]
  · intro _ hlag
    have hcounted := h.counted hopen hlag
    change s.events.length + (s.receiver.queue ++ [e]).length ≤ _
    rw [List.length_append, List.length_append]
    omega
  · intro _ hlag
    have hbehind := h.behind hopen hlag
    change s.events.length + slots < _
    rw [List.length_append]
    omega
  · change (s.receiver.queue ++ [e]).length ≤ slots
    rw [List.length_append]
    exact hroom

/-- The oldest event goes and the receiver lags. -/
theorem Gapless.push_of_full (h : Gapless writes slots s published) (e : Event)
    (hopen : s.isOpen = true) (hfull : s.receiver.queue.length = slots) :
    Gapless writes slots { s with receiver := ⟨(s.receiver.queue ++ [e]).drop 1, true⟩ }
      (published ++ [e]) := by
  refine ⟨h.beginning_append [e], ?_, ?_, ?_, ?_⟩
  · intro _ hlag
    cases hlag
  · intro _ hlag
    cases hlag
  · intro _ _
    change s.events.length + slots < _
    rw [List.length_append, List.length_singleton]
    cases hlag : s.receiver.lagged with
    | true =>
      have hbehind := h.behind hopen hlag
      omega
    | false =>
      have hcounted := h.counted hopen hlag
      omega
  · change ((s.receiver.queue ++ [e]).drop 1).length ≤ slots
    rw [List.length_drop, List.length_append, List.length_singleton]
    omega

theorem Gapless.push (h : Gapless writes slots s published) (e : Event) (hopen : s.isOpen = true) :
    Gapless writes slots { s with receiver := s.receiver.push slots e } (published ++ [e]) := by
  unfold Receiver.push
  by_cases hroom : s.receiver.queue.length < slots
  · rw [if_pos hroom]
    exact h.push_of_room e hopen hroom
  · rw [if_neg hroom]
    exact h.push_of_full e hopen (Nat.le_antisymm h.length_le (Nat.le_of_not_lt hroom))

theorem Gapless.pass (h : Gapless writes slots s published) {e : Event} {queue : List Event}
    (hopen : s.isOpen = true) (hlag : s.receiver.lagged = false)
    (hqueue : s.receiver.queue = e :: queue) (he : writes e = true) :
    Gapless writes slots
      { s with receiver := { s.receiver with queue }, sent := s.sent ++ [.event e] } published := by
  have hevents : ({ s with receiver := { s.receiver with queue }, sent := s.sent ++ [.event e] } :
      Socket).events = s.events ++ [e] := by
    simp [events]
  have hheld := h.held hopen hlag
  rw [hqueue, List.filter_cons_of_pos he, List.append_cons] at hheld
  have hcounted := h.counted hopen hlag
  have hlength := h.length_le
  rw [hqueue, List.length_cons] at hlength hcounted
  refine ⟨?_, ?_, ?_, ?_, ?_⟩
  · rw [hevents, ← hheld]
    exact List.prefix_append _ _
  · intro _ _
    rw [hevents]
    exact hheld
  · intro _ _
    rw [hevents, List.length_append, List.length_singleton]
    change _ + queue.length ≤ _
    omega
  · intro _ hlag'
    rw [hlag] at hlag'
    cases hlag'
  · exact Nat.le_of_succ_le hlength

theorem Gapless.skip (h : Gapless writes slots s published) {e : Event} {queue : List Event}
    (hopen : s.isOpen = true) (hlag : s.receiver.lagged = false)
    (hqueue : s.receiver.queue = e :: queue) (he : ¬ writes e = true) :
    Gapless writes slots { s with receiver := { s.receiver with queue } } published := by
  have hheld := h.held hopen hlag
  rw [hqueue, List.filter_cons_of_neg he] at hheld
  have hcounted := h.counted hopen hlag
  have hlength := h.length_le
  rw [hqueue, List.length_cons] at hlength hcounted
  refine ⟨h.beginning, fun _ _ => hheld, fun _ _ => ?_, ?_, Nat.le_of_succ_le hlength⟩
  · change s.events.length + queue.length ≤ _
    omega
  · intro _ hlag'
    rw [hlag] at hlag'
    cases hlag'

theorem Gapless.miss (h : Gapless writes slots s published) (hclosed : s.isOpen = false)
    (later : List Event) : Gapless writes slots s (published ++ later) where
  beginning := h.beginning_append later
  held hopen _ := by
    rw [hclosed] at hopen
    cases hopen
  counted hopen _ := by
    rw [hclosed] at hopen
    cases hopen
  behind hopen _ := by
    rw [hclosed] at hopen
    cases hopen
  length_le := h.length_le

theorem Gapless.answer (h : Gapless writes slots s published) :
    Gapless writes slots { s with sent := s.sent ++ [.pong] } published := by
  have hevents : ({ s with sent := s.sent ++ [.pong] } : Socket).events = s.events := by
    simp [events]
  refine ⟨?_, ?_, ?_, ?_, h.length_le⟩
  · rw [hevents]
    exact h.beginning
  · rw [hevents]
    exact h.held
  · rw [hevents]
    exact h.counted
  · rw [hevents]
    exact h.behind

theorem Gapless.publish (h : Gapless writes slots s published) (e : Event) :
    Gapless writes slots (s.step writes slots (.publish e))
      (published ++ Socket.published s.channel [.publish e]) := by
  by_cases hchannel : s.channel = e.channel
  · cases hopen : s.isOpen with
    | true =>
      have hone : Socket.published s.channel [.publish e] = [e] := by
        simp [Socket.published, hchannel]
      have hstep : s.step writes slots (.publish e) =
          { s with receiver := s.receiver.push slots e } := by
        simp [Socket.step, hopen, hchannel]
      rw [hone, hstep]
      exact h.push e hopen
    | false =>
      have hstep : s.step writes slots (.publish e) = s := by simp [Socket.step, hopen]
      rw [hstep]
      exact h.miss hopen _
  · have hnone : Socket.published s.channel [.publish e] = [] := by
      simp [Socket.published, Ne.symm hchannel]
    have hstep : s.step writes slots (.publish e) = s := by simp [Socket.step, hchannel]
    rw [hnone, hstep, List.append_nil]
    exact h

theorem Gapless.receive (h : Gapless writes slots s published) (takes : Bool) :
    Gapless writes slots (s.step writes slots (.receive takes)) published := by
  cases hopen : s.isOpen with
  | false =>
    have hstep : s.step writes slots (.receive takes) = s := by simp [Socket.step, hopen]
    rw [hstep]
    exact h
  | true =>
    cases hlag : s.receiver.lagged with
    | true =>
      have hstep : s.step writes slots (.receive takes) = { s with isOpen := false } := by
        simp [Socket.step, hopen, hlag]
      rw [hstep]
      exact h.close
    | false =>
      cases hqueue : s.receiver.queue with
      | nil =>
        have hstep : s.step writes slots (.receive takes) = s := by
          simp [Socket.step, hopen, hlag, hqueue]
        rw [hstep]
        exact h
      | cons e queue =>
        by_cases he : writes e = true
        · cases takes with
          | true =>
            have hstep : s.step writes slots (.receive true) = { s with
                receiver := { s.receiver with queue }, sent := s.sent ++ [.event e] } := by
              simp [Socket.step, hopen, hlag, hqueue, he]
            rw [hstep]
            exact h.pass hopen hlag hqueue he
          | false =>
            have hstep : s.step writes slots (.receive false) = { s with isOpen := false } := by
              simp [Socket.step, hopen, hlag, hqueue, he]
            rw [hstep]
            exact h.close
        · have hstep : s.step writes slots (.receive takes) =
              { s with receiver := { s.receiver with queue } } := by
            simp [Socket.step, hopen, hlag, hqueue, he]
          rw [hstep]
          exact h.skip hopen hlag hqueue he

theorem Gapless.step (h : Gapless writes slots s published) (a : Step) :
    Gapless writes slots (s.step writes slots a) (published ++ Socket.published s.channel [a]) := by
  cases a with
  | publish e => exact h.publish e
  | message m takes =>
    have hnone : Socket.published s.channel [.message m takes] = [] := rfl
    rw [hnone, List.append_nil]
    cases m with
    | ping =>
      simp only [Socket.step]
      split_ifs
      · exact h.answer
      · exact h
    | other => exact h
    | close => exact h.close
    | error => exact h.close
  | receive takes =>
    have hnone : Socket.published s.channel [.receive takes] = [] := rfl
    rw [hnone, List.append_nil]
    exact h.receive takes

theorem channel_step (s : Socket) (a : Step) :
    (s.step writes slots a).channel = s.channel := by
  cases a with
  | publish e =>
    simp only [step]
    split_ifs <;> rfl
  | message m takes =>
    cases m with
    | ping =>
      simp only [step]
      split_ifs <;> rfl
    | other | close | error => rfl
  | receive takes =>
    simp only [step]
    cases s.isOpen <;> cases s.receiver.lagged <;> cases s.receiver.queue <;> cases takes <;>
      (dsimp only; split_ifs <;> rfl)

theorem Gapless.run (h : Gapless writes slots s published) (steps : List Step) :
    Gapless writes slots (steps.foldl (Socket.step writes slots) s)
      (published ++ Socket.published s.channel steps) := by
  induction steps generalizing s published with
  | nil =>
    rw [Socket.published, List.filterMap_nil, List.append_nil]
    exact h
  | cons a steps ih =>
    have hrest := ih (h.step a)
    rw [channel_step, List.append_assoc] at hrest
    have hcons : Socket.published s.channel (a :: steps) =
        Socket.published s.channel [a] ++ Socket.published s.channel steps :=
      List.filterMap_append (l := [a])
    rw [hcons]
    exact hrest

end Socket

inductive Endpoint
  | blocks
  | transactions

def Endpoint.channel : Endpoint → String
  | .blocks => "new_block"
  | .transactions => "new_transaction"

structure WebSocketServer where
  sockets : ℕ → Option Socket

namespace WebSocketServer

inductive Call
  | connect (id : ℕ) (endpoint : Endpoint)
  | publish (e : Event)
  | message (id : ℕ) (m : Incoming) (takes : Bool)
  | receive (id : ℕ) (takes : Bool)

def Call.on (id : ℕ) : Call → Option Socket.Step
  | .connect _ _ => none
  | .publish e => some (.publish e)
  | .message id' m takes => if id' = id then some (.message m takes) else none
  | .receive id' takes => if id' = id then some (.receive takes) else none

def step (writes : Event → Bool) (slots : ℕ) (s : WebSocketServer) : Call → WebSocketServer
  | .connect id endpoint =>
    match s.sockets id with
    | some _ => s
    | none => ⟨Function.update s.sockets id (some (.subscribe endpoint.channel))⟩
  | call => ⟨fun id => (s.sockets id).map fun socket =>
      match call.on id with
      | some a => socket.step writes slots a
      | none => socket⟩

def run (writes : Event → Bool) (slots : ℕ) (s : WebSocketServer) (calls : List Call) :
    WebSocketServer :=
  calls.foldl (step writes slots) s

def new : WebSocketServer := ⟨fun _ => none⟩

def broadcast (channel : String) (calls : List Call) : List Event :=
  calls.filterMap fun
    | .publish e => if e.channel = channel then some e else none
    | _ => none

variable {writes : Event → Bool} {slots : ℕ} {s : WebSocketServer} {id : ℕ} {socket : Socket}

theorem sockets_step (h : s.sockets id = some socket) (call : Call) :
    (s.step writes slots call).sockets id =
      some ((call.on id).elim socket (socket.step writes slots)) := by
  cases call with
  | connect id' endpoint =>
    simp only [step, Call.on, Option.elim_none]
    cases hother : s.sockets id' with
    | some _ => exact h
    | none =>
      have hne : id ≠ id' := by
        rintro rfl
        rw [h] at hother
        cases hother
      exact (Function.update_of_ne hne _ _).trans h
  | publish e => simp [step, Call.on, h]
  | message id' m takes =>
    simp only [step, Call.on, h, Option.map_some]
    split_ifs <;> rfl
  | receive id' takes =>
    simp only [step, Call.on, h, Option.map_some]
    split_ifs <;> rfl

theorem sockets_run (h : s.sockets id = some socket) (calls : List Call) :
    (s.run writes slots calls).sockets id =
      some ((calls.filterMap (Call.on id)).foldl (Socket.step writes slots) socket) := by
  induction calls generalizing s socket with
  | nil => exact h
  | cons call calls ih =>
    rw [run, List.foldl_cons]
    have hrest := ih (@sockets_step writes slots s id socket h call)
    cases hon : call.on id with
    | none =>
      rw [hon] at hrest
      rw [List.filterMap_cons_none hon]
      exact hrest
    | some a =>
      rw [hon] at hrest
      rw [List.filterMap_cons_some hon]
      exact hrest

theorem published_on (id : ℕ) (channel : String) (calls : List Call) :
    Socket.published channel (calls.filterMap (Call.on id)) = broadcast channel calls := by
  rw [Socket.published, List.filterMap_filterMap, broadcast]
  congr 1
  funext call
  cases call with
  | connect id' endpoint => rfl
  | publish e => rfl
  | message id' m takes =>
    simp only [Call.on]
    split_ifs <;> rfl
  | receive id' takes =>
    simp only [Call.on]
    split_ifs <;> rfl

/-- Whatever the other connections and the publishers do, a client of the blocks or the transactions
is sent the events published since it connected in their order and without a gap, those without a
JSON text apart. While its connection is open, what it has not been sent is held for it, unless more
than the channel holds are outstanding. -/
theorem stream_without_gaps (writes : Event → Bool) (slots : ℕ) (before after : List Call) (id : ℕ)
    (endpoint : Endpoint) (hnew : (new.run writes slots before).sockets id = none) :
    let published := broadcast endpoint.channel after
    ∃ socket,
      (new.run writes slots (before ++ .connect id endpoint :: after)).sockets id = some socket ∧
      socket.events <+: published.filter writes ∧
      (socket.isOpen = true → socket.receiver.lagged = false →
        socket.events ++ socket.receiver.queue.filter writes = published.filter writes) ∧
      (socket.isOpen = true → socket.receiver.lagged = true →
        socket.events.length + slots < published.length) := by
  intro published
  have hconnect :
      ((new.run writes slots before).step writes slots (.connect id endpoint)).sockets id =
        some (.subscribe endpoint.channel) := by
    simp only [step, hnew, Function.update_self]
  have hrun := @sockets_run writes slots _ id _ hconnect after
  have hgapless := (Socket.gapless_subscribe writes slots endpoint.channel).run
    (after.filterMap (Call.on id))
  rw [List.nil_append] at hgapless
  have hpublished : Socket.published (Socket.subscribe endpoint.channel).channel
      (after.filterMap (Call.on id)) = published := published_on id endpoint.channel after
  rw [hpublished] at hgapless
  rw [run, List.foldl_append, List.foldl_cons]
  exact ⟨_, hrun, hgapless.beginning, hgapless.held, hgapless.behind⟩

section Sample
open ByteString

def sampleEvent (id : String) : Event where
  id := id
  eventType := .newBlock
    { hash := Bytes.zero 32
      header :=
        { parentHashes := [], timestamp := 0, nonce := 0, difficulty := 0, baseFee := 0,
          stateRoot := Bytes.zero 32, version := 1, blueScore := 0, selectedParent := none,
          chainHeight := 0, topoIndex := 0 }
      transactions := []
      producer := Bytes.zero 20
      reward := 100
      height := 0 } 0
  timestamp := 1
  sourceNode := "node"

/-- The second of three events has no text. -/
def sampleWrites (e : Event) : Bool := e.id ≠ "second"

def sampleCalls : List Call :=
  [.publish (sampleEvent "first"), .receive 7 true, .publish (sampleEvent "second"),
    .connect 8 .transactions, .message 7 .ping true, .receive 7 true,
    .publish (sampleEvent "third")]

theorem stream_without_gaps_sample : ∃ socket,
    (new.run sampleWrites 1 ([] ++ .connect 7 .blocks :: sampleCalls)).sockets 7 = some socket ∧
      socket.isOpen = true ∧ socket.events ++ socket.receiver.queue.filter sampleWrites =
        [sampleEvent "first", sampleEvent "third"] := by
  obtain ⟨socket, hsocket, -, hheld, -⟩ :=
    stream_without_gaps sampleWrites 1 [] sampleCalls 7 .blocks rfl
  have hstate : ((new.run sampleWrites 1 ([] ++ .connect 7 .blocks :: sampleCalls)).sockets 7).map
      (fun socket => (socket.isOpen, socket.receiver.lagged)) = some (true, false) := rfl
  rw [hsocket, Option.map_some, Option.some.injEq, Prod.mk.injEq] at hstate
  obtain ⟨hopen, hlag⟩ := hstate
  exact ⟨socket, hsocket, hopen, hheld hopen hlag⟩

end Sample

end WebSocketServer

end CytahSpeed
