import Ppose.Forwarding.Service

/-!
# The rendezvous service

A server which maps a 32-byte token to the address that registered it last
(`rendezvous.rs`).  A registration lapses after `ttl`.  Only IPv4 addresses have a
wire form, so a token registered last from another address is answered as unknown.

The clock is read once before the entries expire and once more for the time of a
registration.
-/

namespace Ppose

namespace Rendezvous

def opRegister : UInt8 := 1

def opLookup : UInt8 := 2

def opReply : UInt8 := 3

structure RendezvousService where
  map : HashTable (Block 32) (SocketAddr × Instant)
  ttl : Duration

/-- A datagram or the lack of one, with what the step reads of its surroundings. -/
structure Event where
  received : Received
  /-- The time at which entries expire. -/
  now : Instant
  /-- The time given to a registration. -/
  registeredAt : Instant
  socketOk : Bool

def Event.reads (event : Event) : List Instant := [event.now, event.registeredAt]

/-- The body of a reply: the address if there is one and it is IPv4. -/
def replyBody : Option (SocketAddr × Instant) → Bytes
  | some (.v4 ip port, _) => [opReply, 1] ++ addressBytes ip port
  | _ => [opReply, 0]

namespace RendezvousService

def bind : RendezvousService where
  map := ∅
  ttl := 60000000000

def expire (service : RendezvousService) (now : Instant) : RendezvousService :=
  { service with map := service.map.retain fun entry => now - entry.2 < service.ttl }

def handleRegister (service : RendezvousService) (body : Bytes) (source : SocketAddr)
    (now : Instant) : Stepped RendezvousService :=
  if body.length < 33 then .ignored service
  else
    { returned := some true
      sent := none
      service := { service with map := service.map.insert (blockAt 32 1 body) (source, now) } }

def handleLookup (service : RendezvousService) (body : Bytes) (source : SocketAddr)
    (socketOk : Bool) : Stepped RendezvousService :=
  if body.length < 33 then .ignored service
  else
    match encodeDatagram .rendezvous (replyBody (service.map.lookup (blockAt 32 1 body))) with
    | .error _ => .ignored service
    | .ok packet => .transmit socketOk source packet service

/-- Process one datagram. -/
def step (service : RendezvousService) (event : Event) : Stepped RendezvousService :=
  .receiving event.received service fun raw source =>
    match decodeOuter raw with
    | .error _ => .ignored service
    | .ok (packetType, _, body) =>
        if packetType ≠ .rendezvous then .ignored service
        else
          match body with
          | [] => .ignored service
          | op :: _ =>
              let live := service.expire event.now
              if op = opRegister then live.handleRegister body source event.registeredAt
              else if op = opLookup then live.handleLookup body source event.socketOk
              else .ignored live

def run (ttl : Duration) (events : List Event) : RendezvousService :=
  events.foldl (fun service event => (step service event).service) { map := ∅, ttl }

end RendezvousService

def encodeRegister (token : Block 32) : Except PacketError Bytes :=
  encodeDatagram .rendezvous (opRegister :: token.toList)

def encodeLookup (token : Block 32) : Except PacketError Bytes :=
  encodeDatagram .rendezvous (opLookup :: token.toList)

/-- Parse a lookup reply into an address. -/
def decodeReply (packet : Bytes) : Option SocketAddr :=
  match decodeOuter packet with
  | .error _ => none
  | .ok (packetType, _, body) =>
      if packetType ≠ .rendezvous ∨ body.length < 8 ∨ body.getD 0 0 ≠ opReply ∨
          body.getD 1 0 ≠ 1 then none
      else (readAddress (body.drop 2)).map Prod.fst

/-! ### Requests -/

/-- The token and the sender of a well-formed request of a kind. -/
def requestOf (op : UInt8) (event : Event) : Option (Block 32 × SocketAddr) :=
  match event.received with
  | .datagram raw source =>
      match decodeOuter (raw.take maxDatagram) with
      | .ok (.rendezvous, _, body) =>
          if body.head? = some op ∧ 33 ≤ body.length then some (blockAt 32 1 body, source)
          else none
      | _ => none
  | _ => none

/-- The token, the sender and the time of a well-formed registration. -/
def registration (event : Event) : Option (Block 32 × SocketAddr × Instant) :=
  (requestOf opRegister event).map fun request => (request.1, request.2, event.registeredAt)

/-- Where the most recent well-formed registration of a token came from, and when. -/
def latest (events : List Event) (token : Block 32) : Option (SocketAddr × Instant) :=
  ((events.filterMap registration).reverse.find? fun entry => entry.1 = token).map Prod.snd

theorem latest_append_singleton (events : List Event) (event : Event) (token : Block 32) :
    latest (events ++ [event]) token =
      match requestOf opRegister event with
      | some (registered, source) =>
          if registered = token then some (source, event.registeredAt) else latest events token
      | none => latest events token := by
  simp only [latest, List.filterMap_append, List.reverse_append]
  cases request : requestOf opRegister event with
  | none => simp [registration, request]
  | some found =>
      by_cases same : found.1 = token <;> simp [registration, request, same]

theorem requestOf_eq_some_iff {op : UInt8} {event : Event} {token : Block 32}
    {source : SocketAddr} :
    requestOf op event = some (token, source) ↔
      ∃ raw flags body, event.received = .datagram raw source ∧
        decodeOuter (raw.take maxDatagram) = .ok (.rendezvous, flags, op :: body) ∧
        33 ≤ (op :: body).length ∧ blockAt 32 1 (op :: body) = token := by
  unfold requestOf
  constructor
  · intro request
    split at request
    · rename_i raw sender received
      split at request
      · rename_i flags body decoded
        split_ifs at request with wellFormed
        rcases wellFormed with ⟨headEq, long⟩
        cases body with
        | nil => cases headEq
        | cons first rest =>
            cases headEq
            cases request
            exact ⟨raw, flags, rest, received, decoded, long, rfl⟩
      · cases request
    · cases request
  · rintro ⟨raw, flags, body, received, decoded, long, rfl⟩
    simp only [received, decoded, List.head?_cons, true_and, if_pos long]

namespace RendezvousService

theorem service_handleLookup (service : RendezvousService) (body : Bytes) (source : SocketAddr)
    (socketOk : Bool) : (service.handleLookup body source socketOk).service = service := by
  unfold handleLookup
  split_ifs
  · rfl
  · split
    · rfl
    · unfold Stepped.transmit
      split_ifs <;> rfl

/-- Every way in which a step can change the service. -/
theorem service_step_cases (service : RendezvousService) (event : Event) :
    (requestOf opRegister event = none ∧
      ((step service event).service = service ∨
        (step service event).service = service.expire event.now)) ∨
    ∃ token source, requestOf opRegister event = some (token, source) ∧
      (step service event).service =
        { service with
          map := (service.expire event.now).map.insert token (source, event.registeredAt) } := by
  cases request : requestOf opRegister event with
  | some found =>
      right
      rcases requestOf_eq_some_iff.mp request with
        ⟨raw, flags, body, received, decoded, long, tokenEq⟩
      refine ⟨found.1, found.2, rfl, ?_⟩
      simp only [step, Stepped.receiving, received, decoded, ne_eq, not_true_eq_false, if_false,
        if_true, handleRegister, if_neg (not_lt.mpr long), tokenEq]
      rfl
  | none =>
      left
      refine ⟨rfl, ?_⟩
      unfold step Stepped.receiving
      split
      · exact .inl rfl
      · exact .inl rfl
      · rename_i raw source received
        simp only
        split
        · exact .inl rfl
        · rename_i packetType flags body decoded
          split_ifs with isRendezvous
          · exact .inl rfl
          · rw [not_not] at isRendezvous
            subst isRendezvous
            split
            · exact .inl rfl
            · rename_i op rest
              right
              split_ifs with isRegister isLookup
              · subst isRegister
                rw [handleRegister, if_pos]
                · rfl
                · by_contra long
                  have found := requestOf_eq_some_iff.mpr
                    ⟨raw, flags, rest, received, decoded, not_lt.mp long, rfl⟩
                  rw [request] at found
                  cases found
              · exact service_handleLookup _ _ _ _
              · rfl

/-! ### The service answers with the latest registration -/

/-- What the table holds at a time, by the registrations so far. -/
structure Agrees (ttl : Duration) (events : List Event) (now : Instant)
    (service : RendezvousService) : Prop where
  ttl_eq : service.ttl = ttl
  sound : ∀ token entry, service.map.lookup token = some entry → latest events token = some entry
  latest_le : ∀ token entry, latest events token = some entry → entry.2 ≤ now
  complete : ∀ token entry, latest events token = some entry → now - entry.2 < ttl →
    service.map.lookup token = some entry

variable {ttl : Duration} {events : List Event} {now later : Instant}
  {service : RendezvousService}

theorem lookup_expire_iff {token : Block 32} {entry : SocketAddr × Instant} :
    (service.expire now).map.lookup token = some entry ↔
      service.map.lookup token = some entry ∧ now - entry.2 < service.ttl := by
  simp only [expire, HashTable.lookup_retain_eq_some_iff, decide_eq_true_eq]

theorem Agrees.wait (agrees : Agrees ttl events now service) (notBefore : now ≤ later) :
    Agrees ttl events later service where
  ttl_eq := agrees.ttl_eq
  sound := agrees.sound
  latest_le token entry found := (agrees.latest_le token entry found).trans notBefore
  complete token entry found recent :=
    agrees.complete token entry found ((Nat.sub_le_sub_right notBefore entry.2).trans_lt recent)

theorem Agrees.expire (agrees : Agrees ttl events now service) :
    Agrees ttl events now (service.expire now) where
  ttl_eq := agrees.ttl_eq
  sound token entry stored := agrees.sound token entry (lookup_expire_iff.mp stored).1
  latest_le := agrees.latest_le
  complete token entry found recent :=
    lookup_expire_iff.mpr ⟨agrees.complete token entry found recent, agrees.ttl_eq ▸ recent⟩

theorem Agrees.ignore (agrees : Agrees ttl events now service) {event : Event}
    (noRegister : requestOf opRegister event = none) :
    Agrees ttl (events ++ [event]) now service := by
  have latestEq : latest (events ++ [event]) = latest events := by
    funext token
    rw [latest_append_singleton, noRegister]
  refine ⟨agrees.ttl_eq, ?_, ?_, ?_⟩
  · simpa only [latestEq] using agrees.sound
  · simpa only [latestEq] using agrees.latest_le
  · simpa only [latestEq] using agrees.complete

theorem Agrees.register (agrees : Agrees ttl events now service) {event : Event}
    {token : Block 32} {source : SocketAddr}
    (request : requestOf opRegister event = some (token, source))
    (notBefore : now ≤ event.registeredAt) :
    Agrees ttl (events ++ [event]) event.registeredAt
      { service with map := service.map.insert token (source, event.registeredAt) } := by
  have waited := agrees.wait notBefore
  have latestSame : latest (events ++ [event]) token = some (source, event.registeredAt) := by
    rw [latest_append_singleton, request]
    exact if_pos rfl
  have latestOther : ∀ other, other ≠ token →
      latest (events ++ [event]) other = latest events other := by
    intro other different
    rw [latest_append_singleton, request]
    exact if_neg (Ne.symm different)
  refine ⟨agrees.ttl_eq, ?_, ?_, ?_⟩
  · intro other entry stored
    by_cases same : other = token
    · subst same
      rw [AList.lookup_insert] at stored
      rw [latestSame, stored]
    · rw [AList.lookup_insert_ne same] at stored
      rw [latestOther other same]
      exact waited.sound other entry stored
  · intro other entry found
    by_cases same : other = token
    · subst same
      rw [latestSame, Option.some.injEq] at found
      subst found
      exact le_refl _
    · rw [latestOther other same] at found
      exact waited.latest_le other entry found
  · intro other entry found recent
    by_cases same : other = token
    · subst same
      rw [AList.lookup_insert, ← latestSame, found]
    · rw [latestOther other same] at found
      rw [AList.lookup_insert_ne same]
      exact waited.complete other entry found recent

theorem Agrees.step (agrees : Agrees ttl events now service) {event : Event}
    (sorted : (now :: event.reads).Pairwise (· ≤ ·)) :
    Agrees ttl (events ++ [event]) event.registeredAt (service.step event).service := by
  simp only [Event.reads, List.pairwise_cons, List.mem_cons, List.not_mem_nil, or_false,
    forall_eq_or_imp, forall_eq] at sorted
  rcases sorted with ⟨⟨nowLe, _⟩, expiredLe, _⟩
  have waited := agrees.wait nowLe
  rcases service_step_cases service event with ⟨noRegister, same | expired⟩ | ⟨token, source,
    request, registered⟩
  · rw [same]
    exact (waited.ignore noRegister).wait expiredLe
  · rw [expired]
    exact (waited.expire.ignore noRegister).wait expiredLe
  · rw [registered]
    exact waited.expire.register request expiredLe

theorem agrees_run (ttl : Duration) {events : List Event}
    (monotone : ClockedRun.Monotone Event.reads events) :
    Agrees ttl events (ClockedRun.last Event.reads events) (run ttl events) := by
  induction events using List.reverseRecOn with
  | nil => exact ⟨rfl, by simp [run], by simp [latest], by simp [latest]⟩
  | append_singleton events event ih =>
      rw [ClockedRun.last_append_singleton, run, List.foldl_append]
      exact (ih monotone.of_append).step monotone.next

/-! ### Replies -/

theorem decodeReply_replyBody {entry : Option (SocketAddr × Instant)} {packet : Bytes}
    (encoded : encodeDatagram .rendezvous (replyBody entry) = .ok packet) (addr : SocketAddr) :
    decodeReply packet = some addr ↔
      ∃ ip port time, addr = .v4 ip port ∧ entry = some (.v4 ip port, time) := by
  have decoded := decodeOuter_of_encodeDatagram encoded
  simp only [decodeReply, decoded]
  rcases entry with _ | ⟨_ | _, time⟩
  · simp [replyBody]
  · rename_i ip port
    have long : ¬(addressBytes ip port).length + 1 + 1 < 8 := by
      rw [length_addressBytes]
      omega
    have read := readAddress_addressBytes ip port []
    rw [List.append_nil] at read
    simp [replyBody, long, read, eq_comm]
  · simp [replyBody]

theorem exists_reply (entry : Option (SocketAddr × Instant)) :
    ∃ packet, encodeDatagram .rendezvous (replyBody entry) = .ok packet := by
  refine ⟨_, encodeDatagram_of_le ?_⟩
  rcases entry with _ | ⟨_ | _, time⟩ <;>
    simp [replyBody, length_addressBytes, outerHeaderLen, maxDatagram]

theorem sent_step_of_lookup {event : Event} {token : Block 32} {source : SocketAddr}
    (request : requestOf opLookup event = some (token, source)) (socketOk : event.socketOk = true)
    {packet : Bytes}
    (encoded : encodeDatagram .rendezvous
      (replyBody ((service.expire event.now).map.lookup token)) = .ok packet) :
    (service.step event).sent = some (source, packet) := by
  rcases requestOf_eq_some_iff.mp request with ⟨raw, flags, body, received, decoded, long, tokenEq⟩
  subst tokenEq
  have notRegister : ¬opLookup = opRegister := by decide
  simp only [step, Stepped.receiving, received, decoded, ne_eq, not_true_eq_false, if_false,
    if_neg notRegister, if_true, handleLookup, if_neg (not_lt.mpr long), encoded,
    Stepped.transmit, socketOk]

theorem exists_reply_run (ttl : Duration) {events : List Event} {event : Event} {token : Block 32}
    {source : SocketAddr} (monotone : ClockedRun.Monotone Event.reads (events ++ [event]))
    (request : requestOf opLookup event = some (token, source))
    (socketOk : event.socketOk = true) :
    ∃ packet, ((run ttl events).step event).sent = some (source, packet) ∧
      ∀ addr, decodeReply packet = some addr ↔
        ∃ ip port time, addr = .v4 ip port ∧ latest events token = some (addr, time) ∧
          event.now - time < ttl := by
  have nowLe := (List.pairwise_cons.mp monotone.next).1 event.now (by simp [Event.reads])
  have agrees := ((agrees_run ttl monotone.of_append).wait nowLe).expire
  rcases exists_reply (((run ttl events).expire event.now).map.lookup token) with ⟨packet, encoded⟩
  refine ⟨packet, sent_step_of_lookup request socketOk encoded, ?_⟩
  intro addr
  rw [decodeReply_replyBody encoded]
  constructor
  · rintro ⟨ip, port, time, rfl, stored⟩
    have recent := (lookup_expire_iff.mp stored).2
    exact ⟨ip, port, time, rfl, agrees.sound token _ stored, agrees.ttl_eq ▸ recent⟩
  · rintro ⟨ip, port, time, rfl, found, recent⟩
    exact ⟨ip, port, time, rfl, agrees.complete token _ found recent⟩

/-- The address which the sender of an event reads from the reply. -/
def answer (service : RendezvousService) (event : Event) : Option SocketAddr :=
  (service.step event).sent.bind fun reply => decodeReply reply.2

/--
After any run, the reply to a well-formed lookup is read as the IPv4 address of the
most recent well-formed registration of the token if that is younger than `ttl`, and
as no address otherwise.  One more event in the run which is no registration of the
token makes no difference.
-/
theorem lookup_run (ttl : Duration) (events : List Event) (event : Event) (token : Block 32)
    (source : SocketAddr) (monotone : ClockedRun.Monotone Event.reads (events ++ [event]))
    (request : requestOf opLookup event = some (token, source))
    (socketOk : event.socketOk = true) :
    (∃ packet, ((run ttl events).step event).sent = some (source, packet) ∧
      ∀ addr, decodeReply packet = some addr ↔
        ∃ ip port time, addr = .v4 ip port ∧ latest events token = some (addr, time) ∧
          event.now - time < ttl) ∧
    ∀ other, (∀ sender, requestOf opRegister other ≠ some (token, sender)) →
      ClockedRun.Monotone Event.reads (events ++ [other] ++ [event]) →
      (run ttl (events ++ [other])).answer event = (run ttl events).answer event := by
  refine ⟨exists_reply_run ttl monotone request socketOk, ?_⟩
  intro other unrelated longer
  rcases exists_reply_run ttl monotone request socketOk with ⟨packet, sent, reads⟩
  rcases exists_reply_run ttl longer request socketOk with ⟨packetAfter, sentAfter, readsAfter⟩
  have latestEq : latest (events ++ [other]) token = latest events token := by
    rw [latest_append_singleton]
    split
    · rename_i registered sender found
      apply if_neg
      rintro rfl
      exact unrelated sender found
    · rfl
  simp only [answer, sent, sentAfter, Option.bind_some]
  apply Option.ext
  intro addr
  rw [reads, readsAfter, latestEq]

/-! ### What clients send -/

theorem requestOf_encoded {op : UInt8} {token : Block 32} {raw : Bytes}
    (encoded : encodeDatagram .rendezvous (op :: token.toList) = .ok raw) (source : SocketAddr)
    (now registeredAt : Instant) (socketOk : Bool) :
    requestOf op ⟨.datagram raw source, now, registeredAt, socketOk⟩ = some (token, source) := by
  have tokenEq : blockAt 32 1 (op :: token.toList) = token := by
    have split := blockAt_append token [] (show [op].length = 1 from rfl)
    rwa [List.append_nil] at split
  have fits : raw.length ≤ maxDatagram := by
    rw [length_of_decodeOuter (decodeOuter_of_encodeDatagram encoded), List.length_cons,
      token.toList_length]
    decide
  refine requestOf_eq_some_iff.mpr ⟨raw, 0, token.toList, rfl, ?_, ?_, tokenEq⟩
  · rw [List.take_of_length_le fits]
    exact decodeOuter_of_encodeDatagram encoded
  · rw [List.length_cons, token.toList_length]

def sampleToken : Block 32 := List.Vector.replicate 32 9

/-- A request of a client at a time. -/
def sampleRequest (encoded : Except PacketError Bytes) (port : UInt16) (now : Instant) : Event :=
  ⟨.datagram (encoded.toOption.getD []) (loopback port), now, now, true⟩

theorem lookup_run_sample :
    ∃ packet, ((run 60000000000 [sampleRequest (encodeRegister sampleToken) 7000 1]).step
        (sampleRequest (encodeLookup sampleToken) 7001 2)).sent = some (loopback 7001, packet) ∧
      decodeReply packet = some (loopback 7000) := by
  have request : requestOf opLookup (sampleRequest (encodeLookup sampleToken) 7001 2) =
      some (sampleToken, loopback 7001) := requestOf_encoded rfl _ _ _ _
  have registered : latest [sampleRequest (encodeRegister sampleToken) 7000 1] sampleToken =
      some (loopback 7000, 1) := by
    decide +kernel
  rcases (lookup_run 60000000000 [sampleRequest (encodeRegister sampleToken) 7000 1]
    (sampleRequest (encodeLookup sampleToken) 7001 2) sampleToken (loopback 7001) (by decide)
    request rfl).1 with ⟨packet, sent, reads⟩
  exact ⟨packet, sent, (reads _).mpr ⟨_, _, 1, rfl, registered, by decide⟩⟩

end RendezvousService

end Rendezvous

end Ppose
