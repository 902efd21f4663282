import Ppose.Wire.Onion
import Mathlib.Tactic.Linarith
import Mathlib.Tactic.Ring

/-!
# Sizes of nested datagrams

Each hop adds the layer itself, `layerOverhead` bytes, and the outer header of the
datagram around it.  A route is wrapped exactly if it is not empty, every address
which goes into a layer is IPv4, and the outermost datagram still fits.  The address
of the first hop goes into no layer.
-/

namespace Ppose

/-- What is relied on for the sizes: the cipher adds a tag, and takes what fits a datagram. -/
structure OnionCrypto.Sized (crypto : OnionCrypto) : Prop where
  exists_seal : ∀ key nonce aad plain, plain.length ≤ maxDatagram →
    ∃ cipher, crypto.sealAead key nonce aad plain = some cipher
  seal_length : ∀ key nonce aad plain cipher, crypto.sealAead key nonce aad plain = some cipher →
    cipher.length = plain.length + 16
  open_length : ∀ key nonce aad cipher plain, crypto.openAead key nonce aad cipher = some plain →
    cipher.length = plain.length + 16

namespace Onion

/-- The bytes which one hop adds to a datagram. -/
def hopOverhead : ℕ := outerHeaderLen + layerOverhead

variable {crypto : OnionCrypto}

theorem length_of_wrapLayer (sized : crypto.Sized) {draw : Block 32 × Block 24}
    {hopPk : Block 32} {next : SocketAddr} {payload body : Bytes}
    (wrapped : wrapLayer crypto draw hopPk next payload = .ok body) :
    next.isV4 = true ∧ body.length = payload.length + layerOverhead := by
  cases next with
  | v6 => simp [wrapLayer] at wrapped
  | v4 ip port =>
      simp only [wrapLayer] at wrapped
      split at wrapped
      · cases wrapped
      · rename_i cipher sealedEq
        cases wrapped
        have cipherLength := sized.seal_length _ _ _ _ _ sealedEq
        rw [List.length_append, length_addressBytes] at cipherLength
        refine ⟨rfl, ?_⟩
        simp only [List.length_append, List.Vector.toList_length, layerOverhead]
        omega

theorem exists_wrapLayer (sized : crypto.Sized) {next : SocketAddr} {payload : Bytes}
    (nextV4 : next.isV4 = true) (fits : payload.length + hopOverhead ≤ maxDatagram)
    (draw : Block 32 × Block 24) (hopPk : Block 32) :
    ∃ body, wrapLayer crypto draw hopPk next payload = .ok body := by
  cases next with
  | v6 => cases nextV4
  | v4 ip port =>
      have plainFits : (addressBytes ip port ++ payload).length ≤ maxDatagram := by
        rw [List.length_append, length_addressBytes]
        simp only [hopOverhead, outerHeaderLen, layerOverhead] at fits
        omega
      rcases sized.exists_seal
        (deriveHopKey crypto (crypto.sharedSecret draw.1 hopPk)) draw.2
        (crypto.publicKey draw.1).toList _ plainFits with ⟨cipher, sealedEq⟩
      simp only [wrapLayer, sealedEq]
      exact ⟨_, rfl⟩

/-- The layer of one hop goes around exactly the payloads which leave room for it. -/
theorem exists_layer_iff (sized : crypto.Sized) (draw : Block 32 × Block 24) (hopPk : Block 32)
    (next : SocketAddr) (payload : Bytes) :
    (∃ body datagram, wrapLayer crypto draw hopPk next payload = .ok body ∧
        encodeDatagram .onion body = .ok datagram) ↔
      next.isV4 = true ∧ payload.length + hopOverhead ≤ maxDatagram := by
  constructor
  · rintro ⟨body, datagram, wrapped, encoded⟩
    rcases length_of_wrapLayer sized wrapped with ⟨nextV4, bodyLength⟩
    have fits := exists_encodeDatagram_iff.mp ⟨datagram, encoded⟩
    refine ⟨nextV4, ?_⟩
    simp only [hopOverhead]
    omega
  · rintro ⟨nextV4, fits⟩
    rcases exists_wrapLayer sized nextV4 fits draw hopPk with ⟨body, wrapped⟩
    have bodyLength := (length_of_wrapLayer sized wrapped).2
    simp only [hopOverhead] at fits
    have bodyFits : outerHeaderLen + body.length ≤ maxDatagram := by omega
    rcases exists_encodeDatagram_iff.mpr bodyFits with ⟨datagram, encoded⟩
    exact ⟨body, datagram, wrapped, encoded⟩

theorem length_of_layer (sized : crypto.Sized) {draw : Block 32 × Block 24} {hopPk : Block 32}
    {next : SocketAddr} {payload body datagram : Bytes}
    (wrapped : wrapLayer crypto draw hopPk next payload = .ok body)
    (encoded : encodeDatagram .onion body = .ok datagram) :
    datagram.length = payload.length + hopOverhead := by
  rw [length_of_decodeOuter (decodeOuter_of_encodeDatagram encoded),
    (length_of_wrapLayer sized wrapped).2, hopOverhead]
  omega

theorem wrapLayers_cons_eq_ok_iff {draws : Draws} {layer : ℕ} {hop : OnionHop}
    {rest : List OnionHop} {next : SocketAddr} {payload wire : Bytes} :
    wrapLayers crypto draws layer (hop :: rest) next payload = .ok wire ↔
      ∃ body datagram, wrapLayer crypto (draws layer) hop.pk next payload = .ok body ∧
        encodeDatagram .onion body = .ok datagram ∧
        wrapLayers crypto draws (layer + 1) rest hop.addr datagram = .ok wire := by
  simp only [wrapLayers]
  cases wrapLayer crypto (draws layer) hop.pk next payload with
  | error error => simp [bind, Except.bind]
  | ok body =>
      cases encoded : encodeDatagram .onion body with
      | error error => simp [encoded, bind, Except.bind]
      | ok datagram => simp [encoded, bind, Except.bind]

theorem length_of_wrapLayers (sized : crypto.Sized) {draws : Draws} {layer : ℕ}
    {hops : List OnionHop} {next : SocketAddr} {payload wire : Bytes}
    (wrapped : wrapLayers crypto draws layer hops next payload = .ok wire) :
    wire.length = payload.length + hopOverhead * hops.length := by
  induction hops generalizing layer next payload with
  | nil =>
      cases wrapped
      simp
  | cons hop rest ih =>
      rcases wrapLayers_cons_eq_ok_iff.mp wrapped with
        ⟨body, datagram, layered, encoded, wrappedRest⟩
      rw [ih wrappedRest, length_of_layer sized layered encoded, List.length_cons]
      ring

/-- Some hops, from last to first, are wrapped exactly if addresses and size allow it. -/
theorem exists_wrapLayers_iff (sized : crypto.Sized) (draws : Draws) (layer : ℕ) (hop : OnionHop)
    (rest : List OnionHop) (next : SocketAddr) (payload : Bytes) :
    (∃ wire, wrapLayers crypto draws layer (hop :: rest) next payload = .ok wire) ↔
      next.isV4 = true ∧ (∀ other ∈ (hop :: rest).dropLast, other.addr.isV4 = true) ∧
        payload.length + hopOverhead * (rest.length + 1) ≤ maxDatagram := by
  induction rest generalizing layer hop next payload with
  | nil =>
      have layerIff := exists_layer_iff sized (draws layer) hop.pk next payload
      simp only [List.dropLast_singleton, List.not_mem_nil, false_imp_iff, implies_true, true_and,
        List.length_nil, zero_add, mul_one, ← layerIff]
      constructor
      · rintro ⟨wire, wrapped⟩
        rcases wrapLayers_cons_eq_ok_iff.mp wrapped with ⟨body, datagram, layered, encoded, _⟩
        exact ⟨body, datagram, layered, encoded⟩
      · rintro ⟨body, datagram, layered, encoded⟩
        exact ⟨datagram, wrapLayers_cons_eq_ok_iff.mpr ⟨body, datagram, layered, encoded, rfl⟩⟩
  | cons second more ih =>
      have layerIff := exists_layer_iff sized (draws layer) hop.pk next payload
      simp only [List.dropLast_cons_cons, List.forall_mem_cons, List.length_cons]
      constructor
      · rintro ⟨wire, wrapped⟩
        rcases wrapLayers_cons_eq_ok_iff.mp wrapped with
          ⟨body, datagram, layered, encoded, wrappedRest⟩
        rcases (ih (layer + 1) second hop.addr datagram).mp ⟨wire, wrappedRest⟩ with
          ⟨hopV4, restV4, fits⟩
        have nextV4 := (layerIff.mp ⟨body, datagram, layered, encoded⟩).1
        rw [length_of_layer sized layered encoded] at fits
        refine ⟨nextV4, ⟨hopV4, restV4⟩, ?_⟩
        linarith
      · rintro ⟨nextV4, ⟨hopV4, restV4⟩, fits⟩
        have roomForOne : payload.length + hopOverhead ≤ maxDatagram := by
          refine le_trans ?_ fits
          have one : hopOverhead * 1 ≤ hopOverhead * (more.length + 1 + 1) := by
            apply Nat.mul_le_mul_left
            omega
          omega
        rcases layerIff.mpr ⟨nextV4, roomForOne⟩ with ⟨body, datagram, layered, encoded⟩
        have fitsRest : datagram.length + hopOverhead * (more.length + 1) ≤ maxDatagram := by
          rw [length_of_layer sized layered encoded]
          linarith
        rcases (ih (layer + 1) second hop.addr datagram).mpr ⟨hopV4, restV4, fitsRest⟩ with
          ⟨wire, wrappedRest⟩
        exact ⟨wire,
          wrapLayers_cons_eq_ok_iff.mpr ⟨body, datagram, layered, encoded, wrappedRest⟩⟩

theorem exists_wrapRoute_iff (sized : crypto.Sized) (draws : Draws) (hops : List OnionHop)
    (dest : SocketAddr) (inner : Bytes) :
    (∃ wire, wrapRoute crypto draws hops dest inner = .ok wire) ↔
      hops ≠ [] ∧ dest.isV4 = true ∧ (∀ hop ∈ hops.tail, hop.addr.isV4 = true) ∧
        inner.length + hopOverhead * hops.length ≤ maxDatagram := by
  unfold wrapRoute
  split_ifs with empty
  · simp [empty]
  · cases reversed : hops.reverse with
    | nil => exact absurd (List.reverse_eq_nil_iff.mp reversed) empty
    | cons last before =>
        have lengthEq : before.length + 1 = hops.length := by
          rw [← List.length_cons, ← reversed, List.length_reverse]
        have memIff : ∀ hop, hop ∈ (last :: before).dropLast ↔ hop ∈ hops.tail := by
          intro hop
          rw [← reversed, List.dropLast_reverse, List.mem_reverse]
        rw [exists_wrapLayers_iff sized, lengthEq]
        simp only [memIff, ne_eq, empty, not_false_eq_true, true_and]

theorem length_of_wrapRoute (sized : crypto.Sized) {draws : Draws} {hops : List OnionHop}
    {dest : SocketAddr} {inner wire : Bytes}
    (wrapped : wrapRoute crypto draws hops dest inner = .ok wire) :
    wire.length = inner.length + hopOverhead * hops.length := by
  unfold wrapRoute at wrapped
  split_ifs at wrapped
  rw [length_of_wrapLayers sized wrapped, List.length_reverse]

/-- A hop takes off exactly its own layer. -/
theorem length_of_peelLayer (sized : crypto.Sized) {secret : Block 32} {body : Bytes}
    {peeled : Peeled} (peels : peelLayer crypto secret body = .ok peeled) :
    body.length = peeled.payload.length + layerOverhead := by
  unfold peelLayer at peels
  split_ifs at peels with short
  simp only at peels
  split at peels
  · cases peels
  · rename_i plain opened
    have cipherLength := sized.open_length _ _ _ _ _ opened
    rw [List.length_drop] at cipherLength
    split at peels
    · cases peels
    · rename_i next payload read
      cases peels
      have plainLength := length_of_decodeForwardBody
        (show decodeForwardBody plain = .ok (next, payload) by rw [decodeForwardBody, read])
      simp only [forwardBodyOverhead, layerOverhead] at plainLength short ⊢
      omega

theorem sampleCrypto_sized : sampleCrypto.Sized where
  exists_seal _ _ _ _ _ := ⟨_, rfl⟩
  seal_length := sampleCrypto_lawful.seal_length
  open_length := by
    intro key nonce aad cipher plain opened
    simp only [sampleCrypto] at opened
    split_ifs at opened with short
    cases opened
    rw [List.length_take]
    omega

end Onion

end Ppose
