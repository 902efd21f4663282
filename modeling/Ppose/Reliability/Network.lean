import Ppose.Reliability.Layout

/-!
# Two endpoints over an unreliable channel

Two ARQ endpoints exchange the frames they emit over a channel which may drop,
duplicate, delay and reorder them.  The channel is the list of all frames an
endpoint ever emitted: delivering means handing any of them, at any time and any
number of times, to the other endpoint, and a dropped frame is one which is never
picked.

Next to its ARQ state, an endpoint records the history the properties speak
about: the messages accepted by `enqueue`, the messages popped by the
application, and the sequence numbers for which `markReceived` returned true.
The messages ever pushed to `delivered` are those popped followed by those still
queued (`Endpoint.pushed`), since `delivered` is only appended to and popped from
the front.
-/

namespace Ppose

namespace Arq

inductive Side where
  | left
  | right
  deriving DecidableEq, Repr

def Side.peer : Side → Side
  | .left => .right
  | .right => .left

@[simp]
theorem Side.peer_peer (side : Side) : side.peer.peer = side := by
  cases side <;> rfl

theorem Side.peer_ne (side : Side) : side.peer ≠ side := by
  cases side <;> simp [Side.peer]

theorem Side.eq_or_eq_peer (side target : Side) : target = side ∨ target = side.peer := by
  cases side <;> cases target <;> simp [Side.peer]

/-- An endpoint with its history. -/
structure Endpoint where
  arq : Arq
  /-- Every frame handed to the channel, oldest first. -/
  emitted : List Bytes
  /-- Every message for which `enqueue` returned `Ok`, oldest first. -/
  enqueued : List Bytes
  /-- Every message returned by `popDelivered`, oldest first. -/
  popped : List Bytes
  /-- Every sequence number for which `markReceived` returned true, oldest first. -/
  accepted : List UInt32

namespace Endpoint

def initial : Endpoint where
  arq := Arq.new
  emitted := []
  enqueued := []
  popped := []
  accepted := []

/-- Every message ever pushed to `delivered`, oldest first. -/
def pushed (endpoint : Endpoint) : List Bytes := endpoint.popped ++ endpoint.arq.delivered

def fragmentsEnqueued (endpoint : Endpoint) : ℕ := totalFragments endpoint.enqueued

def enqueue (endpoint : Endpoint) (message : Bytes) : Endpoint :=
  match endpoint.arq.enqueue message with
  | (.ok (), arq) => { endpoint with arq, enqueued := endpoint.enqueued ++ [message] }
  | (.error _, arq) => { endpoint with arq }

def takeNewSends (endpoint : Endpoint) (now : Instant) : Endpoint :=
  let (frames, arq) := endpoint.arq.takeNewSends now
  { endpoint with arq, emitted := endpoint.emitted ++ frames }

/-- Emit retransmissions; a give-up emits nothing. -/
def takeRetransmits (endpoint : Endpoint) (now : Instant) : Endpoint :=
  match endpoint.arq.takeRetransmits now with
  | (.ok frames, arq) => { endpoint with arq, emitted := endpoint.emitted ++ frames }
  | (.error _, arq) => { endpoint with arq }

def takeAck (endpoint : Endpoint) : Endpoint :=
  let (ack, arq) := endpoint.arq.takeAck
  { endpoint with arq, emitted := endpoint.emitted ++ ack.toList }

def popDelivered (endpoint : Endpoint) : Endpoint :=
  let (message, arq) := endpoint.arq.popDelivered
  { endpoint with arq, popped := endpoint.popped ++ message.toList }

def setRetx (endpoint : Endpoint) (retx : Duration) : Endpoint :=
  { endpoint with arq := endpoint.arq.setRetx retx }

/-- The sequence number a frame makes `markReceived` accept, if any. -/
def acceptedBy (arq : Arq) (frame : Bytes) : List UInt32 :=
  match decodeInner frame with
  | .ok (.data seq _ _ _ _) => if (arq.markReceived seq).1 then [seq] else []
  | _ => []

/-- Ingest a frame and emit the acknowledgement it returns. -/
def receive (endpoint : Endpoint) (frame : Bytes) : Endpoint :=
  match endpoint.arq.ingest frame with
  | (.ok ack, arq) =>
      { endpoint with
        arq
        emitted := endpoint.emitted ++ ack.toList
        accepted := endpoint.accepted ++ acceptedBy endpoint.arq frame }
  | (.error _, arq) => { endpoint with arq }

end Endpoint

/-- What an endpoint does on its own. -/
inductive LocalOp where
  | enqueue (message : Bytes)
  | takeNewSends (now : Instant)
  | takeRetransmits (now : Instant)
  | takeAck
  | popDelivered
  | setRetx (retx : Duration)
  deriving DecidableEq, Repr

def Endpoint.perform (endpoint : Endpoint) : LocalOp → Endpoint
  | .enqueue message => endpoint.enqueue message
  | .takeNewSends now => endpoint.takeNewSends now
  | .takeRetransmits now => endpoint.takeRetransmits now
  | .takeAck => endpoint.takeAck
  | .popDelivered => endpoint.popDelivered
  | .setRetx retx => endpoint.setRetx retx

/-- One move of the system. -/
inductive Action where
  | perform (side : Side) (op : LocalOp)
  /-- The frame its peer emitted as number `index` arrives at an endpoint. -/
  | deliver (side : Side) (index : ℕ)
  deriving DecidableEq, Repr

structure Net where
  left : Endpoint
  right : Endpoint

namespace Net

def initial : Net := ⟨Endpoint.initial, Endpoint.initial⟩

def endpoint (net : Net) : Side → Endpoint
  | .left => net.left
  | .right => net.right

def set (net : Net) (endpoint : Endpoint) : Side → Net
  | .left => { net with left := endpoint }
  | .right => { net with right := endpoint }

/-- Perform one move; delivering a frame which was never emitted does nothing. -/
def step (net : Net) : Action → Net
  | .perform side op => net.set ((net.endpoint side).perform op) side
  | .deliver side index =>
      match (net.endpoint side.peer).emitted[index]? with
      | some frame => net.set ((net.endpoint side).receive frame) side
      | none => net

def steps (net : Net) (actions : List Action) : Net := actions.foldl step net

def run (actions : List Action) : Net := initial.steps actions

/-- Each side has enqueued few enough fragments for its sequence numbers to be unambiguous. -/
def Bounded (net : Net) : Prop :=
  ∀ side, (net.endpoint side).fragmentsEnqueued ≤ 2 ^ 32 - 1000000

theorem bounded_iff (net : Net) :
    net.Bounded ↔ net.left.fragmentsEnqueued ≤ 2 ^ 32 - 1000000 ∧
      net.right.fragmentsEnqueued ≤ 2 ^ 32 - 1000000 := by
  refine ⟨fun bounded => ⟨bounded .left, bounded .right⟩, ?_⟩
  rintro ⟨leftBounded, rightBounded⟩ (_ | _)
  · exact leftBounded
  · exact rightBounded

instance (net : Net) : Decidable net.Bounded := decidable_of_iff' _ net.bounded_iff

@[simp]
theorem endpoint_set_self (net : Net) (endpoint : Endpoint) (side : Side) :
    (net.set endpoint side).endpoint side = endpoint := by
  cases side <;> rfl

@[simp]
theorem endpoint_set_peer (net : Net) (endpoint : Endpoint) (side : Side) :
    (net.set endpoint side).endpoint side.peer = net.endpoint side.peer := by
  cases side <;> rfl

end Net

/-! ### History only grows -/

@[simp]
theorem Endpoint.enqueued_receive (endpoint : Endpoint) (frame : Bytes) :
    (endpoint.receive frame).enqueued = endpoint.enqueued := by
  unfold Endpoint.receive
  split <;> rfl

theorem Endpoint.enqueued_perform (endpoint : Endpoint) (op : LocalOp) :
    endpoint.enqueued <+: (endpoint.perform op).enqueued := by
  cases op with
  | enqueue message =>
      simp only [Endpoint.perform, Endpoint.enqueue]
      split
      · exact List.prefix_append _ _
      · exact List.prefix_rfl
  | takeRetransmits now =>
      simp only [Endpoint.perform, Endpoint.takeRetransmits]
      split <;> exact List.prefix_rfl
  | takeNewSends now => exact List.prefix_rfl
  | takeAck => exact List.prefix_rfl
  | popDelivered => exact List.prefix_rfl
  | setRetx retx => exact List.prefix_rfl

namespace Net

theorem enqueued_step (net : Net) (action : Action) (side : Side) :
    (net.endpoint side).enqueued <+: ((net.step action).endpoint side).enqueued := by
  cases action with
  | perform actor op =>
      rcases actor.eq_or_eq_peer side with rfl | rfl
      · simpa [step] using Endpoint.enqueued_perform _ op
      · simp [step]
  | deliver actor index =>
      simp only [step]
      split
      · rcases actor.eq_or_eq_peer side with rfl | rfl <;> simp
      · exact List.prefix_rfl

theorem enqueued_steps (net : Net) (actions : List Action) (side : Side) :
    (net.endpoint side).enqueued <+: ((net.steps actions).endpoint side).enqueued := by
  induction actions generalizing net with
  | nil => exact List.prefix_rfl
  | cons action rest ih => exact (net.enqueued_step action side).trans (ih (net.step action))

theorem Bounded.of_steps {net : Net} {actions : List Action}
    (bounded : (net.steps actions).Bounded) : net.Bounded := by
  intro side
  rcases net.enqueued_steps actions side with ⟨added, enqueuedEq⟩
  have := bounded side
  rw [Endpoint.fragmentsEnqueued, ← enqueuedEq, totalFragments_append] at this
  rw [Endpoint.fragmentsEnqueued]
  omega

theorem steps_append (net : Net) (before after : List Action) :
    net.steps (before ++ after) = (net.steps before).steps after :=
  List.foldl_append

end Net

end Arq

end Ppose
