import Ppose.Reliability.OneWay
import Mathlib.Data.List.Forall2
import Mathlib.Data.List.ReduceOption

/-!
# A peer which sends anything

An authenticated peer may still send any bytes at all: fragment headers which
contradict each other, the same index twice, identifiers of messages just
completed.  Next to the endpoint a `Journal` keeps the DATA frames the window took
as new, in the order of their acceptance.

Whatever arrives, each reassembly buffer has one slot for each fragment, some of
them filled and some not, and every payload in it is that of an accepted frame with
the same header which has gone into no message yet.  A message is pushed either for
one frame or for one frame per index of such a buffer, which is dropped with it; so
the frames behind different messages are different (`Provenance`).
-/

namespace Ppose

/-- A buffer has one slot for each fragment, of which some are filled and some are not. -/
structure FragBuf.Unfinished (buf : FragBuf) : Prop where
  length_eq : buf.parts.length = buf.total.toNat
  several : 2 ≤ buf.total.toNat
  filled : ∃ payload, some payload ∈ buf.parts
  lacking : none ∈ buf.parts

namespace Arq

structure DataFrame where
  seq : UInt32
  fragId : UInt16
  index : UInt8
  total : UInt8
  payload : Bytes
  deriving DecidableEq, Repr

/-! ### Where a message comes from -/

/-- A message is made of the accepted frames at the given places. -/
inductive Origin (frames : List DataFrame) : List ℕ → Bytes → Prop where
  | single {place : ℕ} {frame : DataFrame} (taken : frames[place]? = some frame)
      (alone : frame.total = 1) : Origin frames [place] frame.payload
  | joined {parts : List (ℕ × DataFrame)} {fragId : UInt16} {total : UInt8}
      (taken : ∀ part ∈ parts, frames[part.1]? = some part.2)
      (sharing : ∀ part ∈ parts, part.2.fragId = fragId ∧ part.2.total = total)
      (indices : parts.map (fun part => part.2.index.toNat) = List.range total.toNat)
      (several : 2 ≤ total.toNat) :
      Origin frames (parts.map Prod.fst) (parts.map fun part => part.2.payload).flatten

variable {frames : List DataFrame} {source : List ℕ} {message : Bytes}

theorem taken_append {place : ℕ} {found : DataFrame} (taken : frames[place]? = some found)
    (frame : DataFrame) : (frames ++ [frame])[place]? = some found := by
  rw [List.getElem?_append_left (List.getElem?_eq_some_iff.mp taken).1, taken]

theorem Origin.append (origin : Origin frames source message) (frame : DataFrame) :
    Origin (frames ++ [frame]) source message := by
  cases origin with
  | single taken alone => exact .single (taken_append taken frame) alone
  | joined taken sharing indices several =>
      exact .joined (fun part partMem => taken_append (taken part partMem) frame) sharing indices
        several

theorem Origin.place_lt (origin : Origin frames source message) {place : ℕ}
    (placeMem : place ∈ source) : place < frames.length := by
  cases origin with
  | single taken alone =>
      rw [List.mem_singleton.mp placeMem]
      exact (List.getElem?_eq_some_iff.mp taken).1
  | joined taken =>
      rcases List.mem_map.mp placeMem with ⟨part, partMem, rfl⟩
      exact (List.getElem?_eq_some_iff.mp (taken part partMem)).1

/-- Every payload of a buffer is that of an accepted frame which has gone into no message. -/
def Buffered (frames : List DataFrame) (used : List ℕ) (fragId : UInt16) (buf : FragBuf) : Prop :=
  ∀ index payload, buf.parts[index]? = some (some payload) →
    ∃ place frame, place ∉ used ∧ frames[place]? = some frame ∧ frame.fragId = fragId ∧
      frame.total = buf.total ∧ frame.index.toNat = index ∧ frame.payload = payload

variable {used : List ℕ} {fragId : UInt16} {total : UInt8} {buf : FragBuf}

/-- The frames behind a run of filled slots, in order. -/
theorem exists_parts {offset : ℕ} {slots : List (Option Bytes)}
    (complete : slots.all Option.isSome = true)
    (buffered : ∀ index payload, slots[index]? = some (some payload) →
      ∃ place frame, place ∉ used ∧ frames[place]? = some frame ∧ frame.fragId = fragId ∧
        frame.total = total ∧ frame.index.toNat = offset + index ∧ frame.payload = payload) :
    ∃ parts : List (ℕ × DataFrame),
      (∀ part ∈ parts, frames[part.1]? = some part.2) ∧
      (∀ part ∈ parts, part.2.fragId = fragId ∧ part.2.total = total) ∧
      (∀ part ∈ parts, part.1 ∉ used) ∧
      parts.map (fun part => part.2.index.toNat) = List.range' offset slots.length ∧
      parts.map (fun part => part.2.payload) = slots.reduceOption := by
  induction slots generalizing offset with
  | nil => exact ⟨[], by simp, by simp, by simp, by simp, by simp⟩
  | cons slot rest ih =>
      rw [List.all_cons, Bool.and_eq_true] at complete
      rcases Option.isSome_iff_exists.mp complete.1 with ⟨payload, rfl⟩
      rcases buffered 0 payload rfl with
        ⟨place, frame, unused, taken, fragIdEq, totalEq, indexEq, payloadEq⟩
      have later : ∀ index payload, rest[index]? = some (some payload) →
          ∃ place frame, place ∉ used ∧ frames[place]? = some frame ∧ frame.fragId = fragId ∧
            frame.total = total ∧ frame.index.toNat = offset + 1 + index ∧
            frame.payload = payload := by
        intro index payload found
        have := buffered (index + 1) payload found
        rwa [← Nat.add_assoc, Nat.add_right_comm] at this
      rcases ih complete.2 later with ⟨parts, allTaken, sharing, allUnused, indices, payloads⟩
      refine ⟨(place, frame) :: parts, ?_, ?_, ?_, ?_, ?_⟩
      · simpa [taken] using allTaken
      · simpa [fragIdEq, totalEq] using sharing
      · simpa [unused] using allUnused
      · simp [indexEq, indices, List.range'_succ]
      · rw [List.map_cons, payloads, payloadEq, List.reduceOption_cons_of_some]

/-- A complete buffer is a message whose frames were not used before. -/
theorem Buffered.exists_origin (buffered : Buffered frames used fragId buf)
    (length : buf.parts.length = buf.total.toNat) (several : 2 ≤ buf.total.toNat)
    (complete : buf.parts.all Option.isSome = true) :
    ∃ source, Origin frames source buf.parts.reduceOption.flatten ∧ source.Nodup ∧
      (∀ place ∈ source, place ∉ used) ∧
      ∀ place ∈ source, ∃ frame, frames[place]? = some frame ∧ frame.fragId = fragId := by
  have fromZero : ∀ index payload, buf.parts[index]? = some (some payload) →
      ∃ place frame, place ∉ used ∧ frames[place]? = some frame ∧ frame.fragId = fragId ∧
        frame.total = buf.total ∧ frame.index.toNat = 0 + index ∧ frame.payload = payload := by
    simpa only [Nat.zero_add, Buffered] using buffered
  rcases exists_parts complete fromZero with
    ⟨parts, taken, sharing, unused, indices, payloads⟩
  rw [length, ← List.range_eq_range'] at indices
  refine ⟨parts.map Prod.fst, ?_, ?_, ?_, ?_⟩
  · rw [← payloads]
    exact .joined taken sharing indices several
  · -- Places at which different indices are found are different.
    let indexAt : ℕ → Option ℕ := fun place => frames[place]?.map fun frame => frame.index.toNat
    have read : (parts.map Prod.fst).map indexAt = (List.range buf.total.toNat).map some := by
      rw [← indices, List.map_map, List.map_map]
      apply List.map_congr_left
      intro part partMem
      simp only [Function.comp_apply, indexAt, taken part partMem, Option.map_some]
    apply List.Nodup.of_map indexAt
    rw [read]
    exact List.nodup_range.map (Option.some_injective _)
  · intro place placeMem
    rcases List.mem_map.mp placeMem with ⟨part, partMem, rfl⟩
    exact unused part partMem
  · intro place placeMem
    rcases List.mem_map.mp placeMem with ⟨part, partMem, rfl⟩
    exact ⟨part.2, taken part partMem, (sharing part partMem).1⟩

/--
The messages pushed so far, each with the places of the accepted frames it is made
of, and what the reassembly map holds of the others.
-/
structure Provenance (frames : List DataFrame) (fragments : AList fun _ : UInt16 => FragBuf)
    (pushed : List Bytes) (sources : List (List ℕ)) : Prop where
  origins : List.Forall₂ (Origin frames) sources pushed
  nodup : sources.flatten.Nodup
  unfinished : ∀ fragId buf, fragments.lookup fragId = some buf → buf.Unfinished
  buffered : ∀ fragId buf, fragments.lookup fragId = some buf →
    Buffered frames sources.flatten fragId buf

namespace Provenance

variable {fragments : AList fun _ : UInt16 => FragBuf} {pushed : List Bytes}
  {sources : List (List ℕ)}

theorem initial : Provenance [] ∅ [] [] where
  origins := .nil
  nodup := by simp
  unfinished := by simp
  buffered := by simp

theorem place_lt (provenance : Provenance frames fragments pushed sources) {place : ℕ}
    (placeMem : place ∈ sources.flatten) : place < frames.length := by
  rcases List.mem_flatten.mp placeMem with ⟨source, sourceMem, inSource⟩
  rcases List.getElem_of_mem sourceMem with ⟨position, positionLt, rfl⟩
  have origin := List.Forall₂.get provenance.origins positionLt
    (provenance.origins.length_eq ▸ positionLt)
  exact origin.place_lt inSource

/-- An accepted frame which is not stored leaves everything as it is. -/
theorem append (provenance : Provenance frames fragments pushed sources) (frame : DataFrame) :
    Provenance (frames ++ [frame]) fragments pushed sources where
  origins := provenance.origins.imp fun _ _ origin => origin.append frame
  nodup := provenance.nodup
  unfinished := provenance.unfinished
  buffered := by
    intro fragId buf found index payload filled
    rcases provenance.buffered fragId buf found index payload filled with
      ⟨place, other, unused, taken, header⟩
    exact ⟨place, other, unused, taken_append taken frame, header⟩

/-- A further message is pushed for frames which were not used and which no buffer keeps. -/
theorem push (provenance : Provenance frames fragments pushed sources)
    (origin : Origin frames source message) (nodup : source.Nodup)
    (unused : ∀ place ∈ source, place ∉ sources.flatten)
    {rest : AList fun _ : UInt16 => FragBuf}
    (kept : ∀ fragId buf, rest.lookup fragId = some buf → fragments.lookup fragId = some buf)
    (untouched : ∀ fragId buf, rest.lookup fragId = some buf → ∀ place ∈ source, ∀ frame,
      frames[place]? = some frame → frame.fragId ≠ fragId ∨ frame.total ≠ buf.total) :
    Provenance frames rest (pushed ++ [message]) (sources ++ [source]) where
  origins := List.rel_append provenance.origins (.cons origin .nil)
  nodup := by
    rw [List.flatten_append, List.flatten_singleton]
    apply provenance.nodup.append nodup
    intro place old new
    exact unused place new old
  unfinished := fun fragId buf found => provenance.unfinished fragId buf (kept fragId buf found)
  buffered := by
    intro fragId buf found index payload filled
    rcases provenance.buffered fragId buf (kept fragId buf found) index payload filled with
      ⟨place, frame, notUsed, taken, fragIdEq, totalEq, header⟩
    refine ⟨place, frame, ?_, taken, fragIdEq, totalEq, header⟩
    rw [List.flatten_append, List.flatten_singleton, List.mem_append, not_or]
    refine ⟨notUsed, ?_⟩
    intro inSource
    rcases untouched fragId buf found place inSource frame taken with otherId | otherTotal
    · exact otherId fragIdEq
    · exact otherTotal totalEq

theorem push_single (provenance : Provenance frames fragments pushed sources) {frame : DataFrame}
    (alone : frame.total = 1) :
    Provenance (frames ++ [frame]) fragments (pushed ++ [frame.payload])
      (sources ++ [[frames.length]]) := by
  have taken : (frames ++ [frame])[frames.length]? = some frame := by simp
  apply (provenance.append frame).push (.single taken alone) (List.nodup_singleton _)
  · intro place placeMem wasUsed
    rw [List.mem_singleton.mp placeMem] at wasUsed
    exact absurd (provenance.place_lt wasUsed) (lt_irrefl _)
  · exact fun fragId buf found => found
  · intro fragId buf found place placeMem other otherTaken
    rw [List.mem_singleton.mp placeMem, taken, Option.some.injEq] at otherTaken
    subst otherTaken
    right
    rw [alone]
    intro same
    have several := (provenance.unfinished fragId buf found).several
    rw [← same] at several
    exact absurd several (by decide)

/-- The buffer which is found or created has a slot for each fragment of its total. -/
theorem entry {arq : Arq} (provenance : Provenance frames arq.fragments pushed sources)
    (fragId : UInt16) (total : UInt8) :
    (arq.fragEntry fragId total).1.parts.length = (arq.fragEntry fragId total).1.total.toNat ∧
      Buffered frames sources.flatten fragId (arq.fragEntry fragId total).1 ∧
      (∀ other ≠ fragId, (arq.fragEntry fragId total).2.lookup other =
        arq.fragments.lookup other) ∧
      ((arq.fragEntry fragId total).1.total ≠ total →
        (arq.fragEntry fragId total).2 = arq.fragments) := by
  unfold fragEntry
  cases found : arq.fragments.lookup fragId with
  | some buf =>
      exact ⟨(provenance.unfinished fragId buf found).length_eq,
        provenance.buffered fragId buf found, fun other _ => rfl, fun _ => rfl⟩
  | none =>
      refine ⟨by simp, ?_, fun other different => AList.lookup_insert_ne different,
        fun different => absurd rfl different⟩
      intro index payload filled
      simp [List.getElem?_replicate] at filled

/-- A stored frame joins the unused frames of its buffer. -/
theorem buffered_set (provenance : Provenance frames fragments pushed sources)
    {frame : DataFrame} {before : FragBuf}
    (buffered : Buffered frames sources.flatten frame.fragId before)
    (sameTotal : before.total = frame.total) :
    Buffered (frames ++ [frame]) sources.flatten frame.fragId
      { before with parts := before.parts.set frame.index.toNat (some frame.payload) } := by
  intro index payload filled
  by_cases own : frame.index.toNat = index
  · have inside : frame.index.toNat < before.parts.length := by
      have := (List.getElem?_eq_some_iff.mp filled).1
      rw [List.length_set] at this
      omega
    subst own
    simp only [List.getElem?_set_self inside, Option.some.injEq] at filled
    refine ⟨frames.length, frame, ?_, by simp, rfl, sameTotal.symm, rfl, filled⟩
    intro wasUsed
    exact absurd (provenance.place_lt wasUsed) (lt_irrefl _)
  · simp only [List.getElem?_set_ne own] at filled
    rcases buffered index payload filled with ⟨place, other, unused, taken, header⟩
    exact ⟨place, other, unused, taken_append taken frame, header⟩

/-- A frame is stored in a buffer which still lacks a fragment. -/
theorem keep {arq : Arq} (provenance : Provenance frames arq.fragments pushed sources)
    {frame : DataFrame} {before : FragBuf} {rest : AList fun _ : UInt16 => FragBuf}
    (others : ∀ other ≠ frame.fragId, rest.lookup other = arq.fragments.lookup other)
    (buffered : Buffered frames sources.flatten frame.fragId before)
    (sameTotal : before.total = frame.total)
    (length : before.parts.length = frame.total.toNat) (several : 2 ≤ frame.total.toNat)
    (indexLt : frame.index.toNat < before.parts.length)
    (incomplete : ¬(before.parts.set frame.index.toNat (some frame.payload)).all
      Option.isSome = true) :
    Provenance (frames ++ [frame])
      (rest.insert frame.fragId
        { before with parts := before.parts.set frame.index.toNat (some frame.payload) })
      pushed sources := by
  have lookupOf : ∀ {fragId : UInt16} {buf : FragBuf},
      (rest.insert frame.fragId { before with
        parts := before.parts.set frame.index.toNat (some frame.payload) }).lookup fragId =
        some buf →
      (fragId = frame.fragId ∧ buf = { before with
        parts := before.parts.set frame.index.toNat (some frame.payload) }) ∨
        arq.fragments.lookup fragId = some buf := by
    intro fragId buf found
    by_cases own : fragId = frame.fragId
    · subst own
      rw [AList.lookup_insert, Option.some.injEq] at found
      exact Or.inl ⟨rfl, found.symm⟩
    · rw [AList.lookup_insert_ne own, others fragId own] at found
      exact Or.inr found
  refine ⟨(provenance.append frame).origins, provenance.nodup, ?_, ?_⟩
  · intro fragId buf found
    rcases lookupOf found with ⟨rfl, rfl⟩ | old
    · refine ⟨by simpa [sameTotal] using length, by simpa [sameTotal] using several,
        ⟨frame.payload, ?_⟩, ?_⟩
      · exact List.mem_iff_getElem?.mpr ⟨frame.index.toNat, List.getElem?_set_self indexLt⟩
      · by_contra noneMissing
        apply incomplete
        rw [List.all_eq_true]
        intro slot slotMem
        cases slot with
        | none => exact absurd slotMem noneMissing
        | some payload => rfl
    · exact provenance.unfinished fragId buf old
  · intro fragId buf found
    rcases lookupOf found with ⟨rfl, rfl⟩ | old
    · exact provenance.buffered_set buffered sameTotal
    · exact (provenance.append frame).buffered fragId buf old

/-- A frame completes its buffer, which is dropped and pushed as one message. -/
theorem complete {arq : Arq} (provenance : Provenance frames arq.fragments pushed sources)
    {frame : DataFrame} {before : FragBuf} {rest : AList fun _ : UInt16 => FragBuf}
    (others : ∀ other ≠ frame.fragId, rest.lookup other = arq.fragments.lookup other)
    (buffered : Buffered frames sources.flatten frame.fragId before)
    (sameTotal : before.total = frame.total)
    (length : before.parts.length = frame.total.toNat) (several : 2 ≤ frame.total.toNat)
    (complete : (before.parts.set frame.index.toNat (some frame.payload)).all
      Option.isSome = true) :
    ∃ source, Provenance (frames ++ [frame]) (rest.erase frame.fragId)
      (pushed ++ [(before.parts.set frame.index.toNat (some frame.payload)).reduceOption.flatten])
      (sources ++ [source]) := by
  have stored := provenance.buffered_set buffered sameTotal
  rcases stored.exists_origin (by simpa [sameTotal] using length)
      (by simpa [sameTotal] using several) complete with
    ⟨source, origin, nodup, unused, sharing⟩
  have erased : ∀ {fragId : UInt16} {buf : FragBuf},
      (rest.erase frame.fragId).lookup fragId = some buf →
        fragId ≠ frame.fragId ∧ arq.fragments.lookup fragId = some buf := by
    intro fragId buf found
    by_cases own : fragId = frame.fragId
    · subst own
      rw [AList.lookup_erase] at found
      cases found
    · rw [AList.lookup_erase_ne own, others fragId own] at found
      exact ⟨own, found⟩
  refine ⟨source, (provenance.append frame).push origin nodup unused ?_ ?_⟩
  · exact fun fragId buf found => (erased found).2
  · intro fragId buf found place placeMem other otherTaken
    rcases sharing place placeMem with ⟨same, sameTaken, sameId⟩
    rw [sameTaken, Option.some.injEq] at otherTaken
    subst otherTaken
    left
    rw [sameId]
    exact (erased found).1.symm

/-- Storing an accepted frame, whatever its header says. -/
theorem acceptFragment {arq : Arq} {popped : List Bytes}
    (provenance : Provenance frames arq.fragments (popped ++ arq.delivered) sources)
    {frame : DataFrame} (indexBelow : frame.index < frame.total) :
    ∃ next, Provenance (frames ++ [frame])
      (arq.acceptFragment frame.fragId frame.index frame.total frame.payload).fragments
      (popped ++
        (arq.acceptFragment frame.fragId frame.index frame.total frame.payload).delivered)
      next := by
  by_cases alone : frame.total = 1
  · simp only [Arq.acceptFragment, if_pos alone, ← List.append_assoc]
    exact ⟨_, provenance.push_single alone⟩
  rcases provenance.entry frame.fragId frame.total with ⟨length, buffered, others, unchanged⟩
  by_cases sameTotal : (arq.fragEntry frame.fragId frame.total).1.total = frame.total
  · have indexNat : frame.index.toNat < frame.total.toNat := indexBelow
    have several : 2 ≤ frame.total.toNat := by
      have notOne : frame.total.toNat ≠ 1 := fun one => alone (UInt8.toNat_inj.mp one)
      omega
    rw [sameTotal] at length
    have stored : ¬((arq.fragEntry frame.fragId frame.total).1.total ≠ frame.total ∨
        (arq.fragEntry frame.fragId frame.total).1.parts.length ≤ frame.index.toNat) := by
      rw [length]
      rintro (different | outside)
      · exact different sameTotal
      · omega
    by_cases complete : ((arq.fragEntry frame.fragId frame.total).1.parts.set frame.index.toNat
        (some frame.payload)).all Option.isSome = true
    · simp only [Arq.acceptFragment, if_neg alone, if_neg stored, if_pos complete,
        ← List.append_assoc]
      rcases provenance.complete others buffered sameTotal length several complete with
        ⟨source, completed⟩
      exact ⟨_, completed⟩
    · simp only [Arq.acceptFragment, if_neg alone, if_neg stored, if_neg complete]
      exact ⟨sources, provenance.keep others buffered sameTotal length several
        (length ▸ indexNat) complete⟩
  · simp only [Arq.acceptFragment, if_neg alone,
      if_pos (Or.inl sameTotal : _ ∨ (arq.fragEntry frame.fragId frame.total).1.parts.length ≤
        frame.index.toNat), unchanged sameTotal]
    exact ⟨sources, provenance.append frame⟩

/-- The state after a DATA frame, which is in the journal if the window took it as new. -/
theorem onData {arq : Arq} {popped : List Bytes}
    (provenance : Provenance frames arq.fragments (popped ++ arq.delivered) sources)
    {seq : UInt32} {fragId : UInt16} {index total : UInt8} {payload : Bytes}
    (indexBelow : index < total) :
    ∃ next, Provenance
      (frames ++ if (arq.markReceived seq).1 then [⟨seq, fragId, index, total, payload⟩] else [])
      (arq.onData seq fragId index total payload).fragments
      (popped ++ (arq.onData seq fragId index total payload).delivered) next := by
  rcases markReceived_snd arq seq with ⟨recvBase, recvBits, marked⟩
  by_cases fresh : (arq.markReceived seq).1 = true
  · simp only [Arq.onData, if_pos fresh, marked]
    have before : Provenance frames { arq with recvBase, recvBits }.fragments
        (popped ++ { arq with recvBase, recvBits }.delivered) sources := provenance
    have consistent : (⟨seq, fragId, index, total, payload⟩ : DataFrame).index <
        (⟨seq, fragId, index, total, payload⟩ : DataFrame).total := indexBelow
    exact before.acceptFragment consistent
  · simp only [Arq.onData, if_neg fresh, marked, List.append_nil]
    exact ⟨sources, provenance⟩

end Provenance

/-! ### Any bytes from the peer -/

/-- An endpoint with the DATA frames its window took as new, oldest first. -/
structure Journal where
  endpoint : Endpoint
  frames : List DataFrame

inductive PeerAction where
  | perform (op : LocalOp)
  /-- The peer sends any bytes at all. -/
  | ingest (bytes : Bytes)
  deriving DecidableEq, Repr

namespace Journal

def initial : Journal where
  endpoint := Endpoint.initial
  frames := []

/-- The DATA frame which makes `markReceived` return true, if the bytes are one. -/
def newFrame (arq : Arq) (bytes : Bytes) : List DataFrame :=
  match decodeInner bytes with
  | .ok (.data seq fragId index total payload) =>
      if (arq.markReceived seq).1 then [⟨seq, fragId, index, total, payload⟩] else []
  | _ => []

def step (journal : Journal) : PeerAction → Journal
  | .perform op => { journal with endpoint := journal.endpoint.perform op }
  | .ingest bytes =>
      { endpoint := journal.endpoint.receive bytes
        frames := journal.frames ++ newFrame journal.endpoint.arq bytes }

def run (actions : List PeerAction) : Journal := actions.foldl step initial

def Traced (journal : Journal) (sources : List (List ℕ)) : Prop :=
  Provenance journal.frames journal.endpoint.arq.fragments journal.endpoint.pushed sources

theorem Traced.ingest {journal : Journal} {sources : List (List ℕ)}
    (traced : journal.Traced sources) (bytes : Bytes) :
    ∃ next, (journal.step (.ingest bytes)).Traced next := by
  rcases decodeInner_cases bytes with
    ⟨seq, fragId, index, total, payload, indexBelow, _, decoded⟩ | ⟨base, bits, _, decoded⟩ |
    ⟨error, decoded⟩
  · simp only [Traced, Endpoint.pushed] at traced
    simp only [Traced, step, newFrame, decoded, receive_data journal.endpoint decoded,
      Endpoint.pushed]
    exact traced.onData indexBelow
  · simp only [Traced, step, newFrame, decoded, receive_ack journal.endpoint decoded,
      List.append_nil]
    exact ⟨sources, traced⟩
  · simp only [Traced, step, newFrame, decoded, receive_error journal.endpoint decoded,
      List.append_nil]
    exact ⟨sources, traced⟩

theorem Traced.step {journal : Journal} {sources : List (List ℕ)}
    (traced : journal.Traced sources) (action : PeerAction) :
    ∃ next, (journal.step action).Traced next := by
  cases action with
  | perform op =>
      have same := journal.endpoint.receiveState_perform op
      simp only [Endpoint.receiveState, Prod.mk.injEq] at same
      refine ⟨sources, ?_⟩
      simp only [Traced, Journal.step, same.2.2.2.1, same.2.2.2.2]
      exact traced
  | ingest bytes => exact traced.ingest bytes

theorem exists_traced_run (actions : List PeerAction) :
    ∃ sources, (run actions).Traced sources := by
  induction actions using List.reverseRecOn with
  | nil => exact ⟨[], Provenance.initial⟩
  | append_singleton actions action ih =>
      rcases ih with ⟨sources, traced⟩
      have runEq : run (actions ++ [action]) = (run actions).step action := by simp [run]
      rw [runEq]
      exact traced.step action

/--
Whatever bytes arrive between whatever calls: every buffer is well formed and
unfinished, so a fragment of the buffer's total has its slot; refused bytes change
nothing, an ACK frame removes outgoing frames at most, a DATA frame leaves them
alone; and every message pushed is made of accepted frames of its own.
-/
theorem ingest_robust (actions : List PeerAction) :
    (∀ fragId buf, (run actions).endpoint.arq.fragments.lookup fragId = some buf →
      buf.Unfinished) ∧
    (∀ bytes seq fragId index total payload,
      decodeInner bytes = .ok (.data seq fragId index total payload) →
      (((run actions).endpoint.arq.markReceived seq).2.fragEntry fragId total).1.total = total →
      index.toNat <
        (((run actions).endpoint.arq.markReceived seq).2.fragEntry fragId total).1.parts.length) ∧
    (∀ bytes error, ((run actions).endpoint.arq.ingest bytes).1 = .error error →
      ((run actions).endpoint.arq.ingest bytes).2 = (run actions).endpoint.arq) ∧
    (∀ bytes base bitmap, decodeInner bytes = .ok (.ack base bitmap) →
      ∃ unacked, ((run actions).endpoint.arq.ingest bytes).2 =
          { (run actions).endpoint.arq with unacked } ∧
        unacked.entries.Sublist (run actions).endpoint.arq.unacked.entries) ∧
    (∀ bytes seq fragId index total payload,
      decodeInner bytes = .ok (.data seq fragId index total payload) →
      ((run actions).endpoint.arq.ingest bytes).2.unacked = (run actions).endpoint.arq.unacked ∧
      ((run actions).endpoint.arq.ingest bytes).2.nextSeq =
        (run actions).endpoint.arq.nextSeq) ∧
    ∃ sources, List.Forall₂ (Origin (run actions).frames) sources
        (run actions).endpoint.pushed ∧
      sources.flatten.Nodup := by
  rcases exists_traced_run actions with ⟨sources, traced⟩
  refine ⟨traced.unfinished, ?_, ?_, ?_, ?_, sources, traced.origins, traced.nodup⟩
  · intro bytes seq fragId index total payload decoded sameTotal
    rcases markReceived_snd (run actions).endpoint.arq seq with ⟨recvBase, recvBits, marked⟩
    rw [marked] at sameTotal ⊢
    have marks : Provenance (run actions).frames
        { (run actions).endpoint.arq with recvBase, recvBits }.fragments
        (run actions).endpoint.pushed sources := traced
    rw [(marks.entry fragId total).1, sameTotal]
    exact ((decodeInner_eq_data_iff bytes seq fragId index total payload).mp decoded).1
  · intro bytes error failed
    rcases decodeInner_cases bytes with
      ⟨_, _, _, _, _, _, _, decoded⟩ | ⟨_, _, _, decoded⟩ | ⟨_, decoded⟩
    · simp [ingest, decoded] at failed
    · simp [ingest, decoded] at failed
    · simp only [ingest, decoded]
  · intro bytes base bitmap decoded
    refine ⟨((run actions).endpoint.arq.onAck base bitmap).unacked, ?_, List.filter_sublist⟩
    simp only [ingest, decoded]
    rfl
  · intro bytes seq fragId index total payload decoded
    rcases onData_eq (run actions).endpoint.arq seq fragId index total payload with
      ⟨recvBase, recvBits, fragments, delivered, received⟩
    simp only [ingest, decoded, received, and_self]

/-- A frame with another total comes between the two fragments of a message. -/
def conflicting : List PeerAction :=
  [.ingest (encodeData 0 9 0 2 [1]), .ingest (encodeData 1 9 0 3 [2]),
    .ingest (encodeData 2 9 1 2 [3])]

theorem ingest_robust_conflicting :
    (run conflicting).endpoint.pushed = [[1, 3]] ∧
    ∃ sources, List.Forall₂ (Origin (run conflicting).frames) sources
        (run conflicting).endpoint.pushed ∧
      sources.flatten.Nodup :=
  ⟨by decide +kernel, (ingest_robust conflicting).2.2.2.2.2⟩

end Journal

end Arq

end Ppose
