import WeftWarp.Fanout

/-! The turns of the stream parser: what each mode does with the buffer, that a turn depends on nothing behind what it
    consumes, and the whole of what a turn can do. -/

namespace WeftWarp.Fanout

open Feed

/-! ### Lines -/

section Lines
variable {sep b : UInt8} {bytes front back more : Bytes}

theorem cutAt_cons_self (sep : UInt8) (bytes : Bytes) : cutAt sep (sep :: bytes) = some ([], bytes) := by
  rw [cutAt, if_pos rfl]

theorem cutAt_cons_of_ne (other : b ≠ sep) (bytes : Bytes) :
    cutAt sep (b :: bytes) = (cutAt sep bytes).map fun (front, back) => (b :: front, back) := by
  rw [cutAt, if_neg other]

theorem cutAt_eq_some : cutAt sep bytes = some (front, back) ↔ bytes = front ++ sep :: back ∧ sep ∉ front := by
  induction bytes generalizing front with
  | nil => simp [cutAt]
  | cons b bytes ih =>
    by_cases same : b = sep
    · subst same
      rw [cutAt_cons_self]
      cases front with
      | nil => simp
      | cons a front => simp +contextual [eq_comm]
    · rw [cutAt_cons_of_ne same]
      cases front with
      | nil => simp [same]
      | cons a front =>
        simp only [Option.map_eq_some_iff, Prod.mk.injEq, List.cons.injEq, List.cons_append, List.mem_cons, not_or]
        constructor
        · rintro ⟨⟨front', back'⟩, cut, ⟨rfl, rfl⟩, rfl⟩
          obtain ⟨rfl, absent⟩ := ih.mp cut
          exact ⟨⟨rfl, rfl⟩, Ne.symm same, absent⟩
        · rintro ⟨⟨rfl, rfl⟩, -, absent⟩
          exact ⟨(front, back), ih.mpr ⟨rfl, absent⟩, ⟨rfl, rfl⟩, rfl⟩

theorem cutAt_eq_none : cutAt sep bytes = none ↔ sep ∉ bytes := by
  induction bytes with
  | nil => simp [cutAt]
  | cons b bytes ih =>
    by_cases same : b = sep
    · subst same
      simp [cutAt_cons_self]
    · simp [cutAt_cons_of_ne same, ih, Ne.symm same]

theorem length_lt_of_cutAt (cut : cutAt sep bytes = some (front, back)) : back.length < bytes.length := by
  obtain ⟨rfl, -⟩ := cutAt_eq_some.mp cut
  rw [List.length_append, List.length_cons]
  omega

theorem notMem_header {verb text : Bytes} (verbLine : newline ∉ verb) (line : newline ∉ text) :
    newline ∉ verb ++ space :: text := by
  have other : newline ≠ space := by decide
  simp [verbLine, line, other]

end Lines

/-! ### Frames -/

theorem exists_of_frameLen {buf : Bytes} {n : Nat} (len : frameLen buf = some n) :
    ∃ b₀ b₁ b₂ b₃ bytes, buf = b₀ :: b₁ :: b₂ :: b₃ :: bytes := by
  rcases buf with _ | ⟨b₀, _ | ⟨b₁, _ | ⟨b₂, _ | ⟨b₃, bytes⟩⟩⟩⟩
  · cases len
  · cases len
  · cases len
  · cases len
  · exact ⟨b₀, b₁, b₂, b₃, bytes, rfl⟩

theorem frameLen_append {buf : Bytes} {n : Nat} (len : frameLen buf = some n) (more : Bytes) :
    frameLen (buf ++ more) = some n := by
  obtain ⟨b₀, b₁, b₂, b₃, bytes, rfl⟩ := exists_of_frameLen len
  exact len

theorem length_of_frameLen {buf : Bytes} {n : Nat} (len : frameLen buf = some n) : 4 ≤ buf.length := by
  obtain ⟨b₀, b₁, b₂, b₃, bytes, rfl⟩ := exists_of_frameLen len
  exact Nat.le_add_left 4 bytes.length

section Rounds
variable {K : Type} {core : Core K} {cnx : Cnx} {streamId : StreamId}
variable {state : Tables K} {stream : Parse} {buf rest : Bytes}

/-! ### Modes -/

theorem pumpRound_header (header : stream.headerParsed = false) :
    pumpRound core cnx streamId (state, stream) buf =
      match cutAt newline buf with
      | none => .wait
      | some (header, rest) =>
        match cutAt space header with
        | none => .halt (state, stream) rest
        | some (verb, topic) => pumpHeader core cnx streamId verb topic state stream rest := by
  rw [pumpRound]
  exact if_pos (by simp [header])

theorem pumpRound_sketch (header : stream.headerParsed = true) (sketch : stream.isSketch = true) :
    pumpRound core cnx streamId (state, stream) buf =
      match frameLen buf with
      | none => .wait
      | some n =>
        if n > kMaxSketchFrame then .wait
        else if buf.length < 4 + n then .wait
        else
          .go (handleSketchFrame core cnx stream.roomId ((buf.drop 4).take n) state, stream) (buf.drop (4 + n))
            [.handleSketchFrame stream.roomId ((buf.drop 4).take n)] := by
  rw [pumpRound]
  exact (if_neg (by simp [header])).trans (if_pos sketch)

theorem pumpRound_pub (header : stream.headerParsed = true) (sketch : stream.isSketch = false)
    (pub : stream.isPub = true) :
    pumpRound core cnx streamId (state, stream) buf =
      if buf.length < kEntityPacketSize then .wait
      else
        .go (handlePub core cnx stream.topic (buf.take kEntityPacketSize) state, { stream with headerParsed := false })
          (buf.drop kEntityPacketSize) [.handlePub stream.topic (buf.take kEntityPacketSize)] := by
  simp only [pumpRound, header, sketch, pub, Bool.not_true, Bool.false_eq_true, if_false, if_true]

theorem pumpRound_zone (header : stream.headerParsed = true) (sketch : stream.isSketch = false)
    (pub : stream.isPub = false) (zone : stream.isZonePub = true) :
    pumpRound core cnx streamId (state, stream) buf =
      if buf.length < kEntityPacketSize then .wait
      else
        .go (handleZonePub core cnx stream.motion (buf.take kEntityPacketSize) state,
            { stream with headerParsed := false })
          (buf.drop kEntityPacketSize) [.handleZonePub stream.motion (buf.take kEntityPacketSize)] := by
  simp only [pumpRound, header, sketch, pub, zone, Bool.not_true, Bool.false_eq_true, if_false, if_true]

theorem pumpRound_idle (header : stream.headerParsed = true) (sketch : stream.isSketch = false)
    (pub : stream.isPub = false) (zone : stream.isZonePub = false) :
    pumpRound core cnx streamId (state, stream) buf = .wait := by
  simp only [pumpRound, header, sketch, pub, zone, Bool.not_true, Bool.false_eq_true, if_false]

/-! ### Headers -/

theorem handleSketchSub_stream (core : Core K) (cnx : Cnx) (streamId : StreamId) (stream : Parse) (state : Tables K) :
    ∃ roomId, (handleSketchSub core cnx streamId stream state).2 = { stream with roomId := roomId } := by
  simp only [handleSketchSub]
  split
  · exact ⟨stream.roomId, rfl⟩
  · exact ⟨_, rfl⟩

theorem parseZpbLoop_fst (m m' : Motion) : ∀ (fields : List (Int64 → Motion → Motion)) (p : Bytes),
    (parseZpbLoop fields p m).1 = (parseZpbLoop fields p m').1
  | [], _ => rfl
  | write :: fields, p => by
    rw [parseZpbLoop, parseZpbLoop]
    cases fromChars p with
    | none => rfl
    | some r =>
      obtain ⟨v, q⟩ := r
      cases last : fields.isEmpty with
      | true => simp only [if_true]
      | false =>
        cases q with
        | nil => simp only [Bool.false_eq_true, if_false]
        | cons b p' =>
          by_cases sep : b = space
          · simpa only [sep, Bool.false_eq_true, if_false, if_true] using parseZpbLoop_fst _ _ fields p'
          · simp only [sep, Bool.false_eq_true, if_false]

/-- Whether the fields are well formed does not depend on what was there before. -/
theorem parseZpbFields_fst (rest : Bytes) (m m' : Motion) : (parseZpbFields rest m).1 = (parseZpbFields rest m').1 :=
  parseZpbLoop_fst m m' zpbFields rest

/-- A header that makes the parser stop: an unknown verb, or `ZPB` without six numbers. -/
def Stops (verb topic : Bytes) : Prop :=
  verb ≠ subVerb ∧ verb ≠ pubVerb ∧ verb ≠ skbVerb ∧ (verb = zpbVerb → (parseZpbFields topic {}).1 = false)

instance (verb topic : Bytes) : Decidable (Stops verb topic) := inferInstanceAs (Decidable (_ ∧ _))

/-- What a header does to the tables and the stream, by its verb. -/
inductive HeaderTurn (core : Core K) (cnx : Cnx) (streamId : StreamId) (topic : Bytes) (state : Tables K)
    (stream : Parse) : Bytes → List (Option Call) → Tables K × Parse → Prop where
  | sub : HeaderTurn core cnx streamId topic state stream subVerb [some (.handleSub topic)]
      (handleSub core cnx streamId topic state, { stream with topic := topic, headerParsed := true, isPub := false })
  | pub : HeaderTurn core cnx streamId topic state stream pubVerb []
      (state, { stream with topic := topic, headerParsed := true, isPub := true })
  | skb : HeaderTurn core cnx streamId topic state stream skbVerb [some (.handleSketchSub topic)]
      (handleSketchSub core cnx streamId { stream with topic := topic, headerParsed := true, isSketch := true } state)
  | zpb (wellFormed : (parseZpbFields topic {}).1 = true) :
      HeaderTurn core cnx streamId topic state stream zpbVerb [some .handleZoneSub]
        (handleZoneSub cnx streamId state, { stream with
          topic := topic, headerParsed := true, motion := (parseZpbFields topic stream.motion).2, isZonePub := true })
  | stop {verb : Bytes} (motion : Motion) (stops : Stops verb topic)
      (written : motion = if verb = zpbVerb then (parseZpbFields topic stream.motion).2 else stream.motion) :
      HeaderTurn core cnx streamId topic state stream verb [none]
        (state, { stream with topic := topic, headerParsed := true, motion := motion })

section Header
variable {verb topic : Bytes} {s' : Tables K × Parse} {out : List (Option Call)}

/-- A header is consumed whatever stands behind it. -/
theorem HeaderTurn.next (turn : HeaderTurn core cnx streamId topic state stream verb out s') (rest : Bytes) :
    (pumpHeader core cnx streamId verb topic state stream rest).next = some (s', rest, out) := by
  cases turn with
  | sub => rfl
  | pub => rfl
  | skb => rfl
  | zpb wellFormed =>
    rw [parseZpbFields_fst topic {} stream.motion] at wellFormed
    have others : zpbVerb ≠ subVerb ∧ zpbVerb ≠ pubVerb ∧ zpbVerb ≠ skbVerb := by decide
    simp only [pumpHeader, others, if_false, if_true, wellFormed]
    rfl
  | stop motion stops written =>
    obtain ⟨notSub, notPub, notSkb, malformed⟩ := stops
    by_cases zpb : verb = zpbVerb
    · have fails := (parseZpbFields_fst topic {} stream.motion).symm.trans (malformed zpb)
      rw [if_pos zpb] at written
      simp only [pumpHeader, notSub, notPub, notSkb, if_pos zpb, if_false, fails, Bool.false_eq_true, written, Round.next]
    · rw [if_neg zpb] at written
      simp only [pumpHeader, notSub, notPub, notSkb, zpb, if_false, written, Round.next]

theorem exists_headerTurn (core : Core K) (cnx : Cnx) (streamId : StreamId) (verb topic : Bytes) (state : Tables K)
    (stream : Parse) : ∃ out s', HeaderTurn core cnx streamId topic state stream verb out s' := by
  by_cases sub : verb = subVerb
  · exact sub ▸ ⟨_, _, .sub⟩
  by_cases pub : verb = pubVerb
  · exact pub ▸ ⟨_, _, .pub⟩
  by_cases skb : verb = skbVerb
  · exact skb ▸ ⟨_, _, .skb⟩
  by_cases zpb : verb = zpbVerb ∧ (parseZpbFields topic {}).1 = true
  · obtain ⟨rfl, wellFormed⟩ := zpb
    exact ⟨_, _, .zpb wellFormed⟩
  · refine ⟨_, _, .stop _ ⟨sub, pub, skb, fun same => ?_⟩ rfl⟩
    exact Bool.eq_false_iff.mpr fun wellFormed => zpb ⟨same, wellFormed⟩

end Header

/-! ### What a turn can do -/

/-- A turn that is not a wait, with the bytes it consumes: a line without a space, a header, a sketch frame, or a
    payload. -/
inductive Turn (core : Core K) (cnx : Cnx) (streamId : StreamId) :
    Tables K × Parse → Bytes → List (Option Call) → Tables K × Parse → Prop where
  | bare {state stream line} (mode : stream.headerParsed = false) (noSpace : space ∉ line) (noBreak : newline ∉ line) :
      Turn core cnx streamId (state, stream) (line ++ [newline]) [none] (state, stream)
  | header {state stream verb topic s' out} (mode : stream.headerParsed = false) (noSpace : space ∉ verb)
      (noBreak : newline ∉ verb ++ space :: topic)
      (turn : HeaderTurn core cnx streamId topic state stream verb out s') :
      Turn core cnx streamId (state, stream) (verb ++ space :: topic ++ [newline]) out s'
  | frame {state stream used frame} (mode : stream.headerParsed = true) (sketch : stream.isSketch = true)
      (len : frameLen used = some frame.length) (bound : frame.length ≤ kMaxSketchFrame)
      (body : used.drop 4 = frame) :
      Turn core cnx streamId (state, stream) used [some (.handleSketchFrame stream.roomId frame)]
        (handleSketchFrame core cnx stream.roomId frame state, stream)
  | pub {state stream payload} (mode : stream.headerParsed = true) (sketch : stream.isSketch = false)
      (pub : stream.isPub = true) (length : payload.length = kEntityPacketSize) :
      Turn core cnx streamId (state, stream) payload [some (.handlePub stream.topic payload)]
        (handlePub core cnx stream.topic payload state, { stream with headerParsed := false })
  | zone {state stream payload} (mode : stream.headerParsed = true) (sketch : stream.isSketch = false)
      (pub : stream.isPub = false) (zone : stream.isZonePub = true) (length : payload.length = kEntityPacketSize) :
      Turn core cnx streamId (state, stream) payload [some (.handleZonePub stream.motion payload)]
        (handleZonePub core cnx stream.motion payload state, { stream with headerParsed := false })

variable {s s' : Tables K × Parse} {used : Bytes} {out : List (Option Call)}

theorem Turn.next (turn : Turn core cnx streamId s used out s') (rest : Bytes) :
    (pumpRound core cnx streamId s (used ++ rest)).next = some (s', rest, out) := by
  cases turn with
  | @bare state stream line mode noSpace noBreak =>
    have cut : cutAt newline (line ++ [newline] ++ rest) = some (line, rest) :=
      cutAt_eq_some.mpr ⟨by simp, noBreak⟩
    rw [pumpRound_header mode, cut]
    simp only [cutAt_eq_none.mpr noSpace, Round.next]
  | @header state stream verb topic _ _ mode noSpace noBreak turn =>
    have cut : cutAt newline (verb ++ space :: topic ++ [newline] ++ rest) = some (verb ++ space :: topic, rest) :=
      cutAt_eq_some.mpr ⟨by simp, noBreak⟩
    have cut' : cutAt space (verb ++ space :: topic) = some (verb, topic) := cutAt_eq_some.mpr ⟨rfl, noSpace⟩
    rw [pumpRound_header mode, cut]
    simp only [cut']
    exact turn.next rest
  | @frame state stream _ frame mode sketch len bound body =>
    have length : used.length = 4 + frame.length := by
      have four := length_of_frameLen len
      have dropped := congrArg List.length body
      rw [List.length_drop] at dropped
      omega
    have taken : ((used ++ rest).drop 4).take frame.length = frame := by
      rw [List.drop_append_of_le_length (by omega), body, List.take_left' rfl]
    have dropped : (used ++ rest).drop (4 + frame.length) = rest := List.drop_left' length
    have enough : ¬ (used ++ rest).length < 4 + frame.length := by
      rw [List.length_append]
      omega
    rw [pumpRound_sketch mode sketch, frameLen_append len]
    simp only [Nat.not_lt.mpr bound, if_false, enough, taken, dropped]
    rfl
  | @pub state stream _ mode sketch pub length =>
    have enough : ¬ (used ++ rest).length < kEntityPacketSize := by
      rw [List.length_append]
      omega
    rw [pumpRound_pub mode sketch pub, if_neg enough, List.take_left' length, List.drop_left' length]
    rfl
  | @zone state stream _ mode sketch pub zone length =>
    have enough : ¬ (used ++ rest).length < kEntityPacketSize := by
      rw [List.length_append]
      omega
    rw [pumpRound_zone mode sketch pub zone, if_neg enough, List.take_left' length, List.drop_left' length]
    rfl

theorem turn_of_next_header (mode : stream.headerParsed = false)
    (next : (pumpRound core cnx streamId (state, stream) buf).next = some (s', rest, out)) :
    ∃ used, buf = used ++ rest ∧ Turn core cnx streamId (state, stream) used out s' := by
  rw [pumpRound_header mode] at next
  cases cut : cutAt newline buf with
  | none =>
    rw [cut] at next
    cases next
  | some parts =>
    obtain ⟨line, rest'⟩ := parts
    obtain ⟨rfl, noBreak⟩ := cutAt_eq_some.mp cut
    simp only [cut] at next
    cases cut' : cutAt space line with
    | none =>
      simp only [cut', Round.next, Option.some.injEq, Prod.mk.injEq] at next
      obtain ⟨rfl, rfl, rfl⟩ := next
      exact ⟨line ++ [newline], by simp, .bare mode (cutAt_eq_none.mp cut') noBreak⟩
    | some words =>
      obtain ⟨verb, topic⟩ := words
      obtain ⟨rfl, noSpace⟩ := cutAt_eq_some.mp cut'
      obtain ⟨out₁, s₁, header⟩ := exists_headerTurn core cnx streamId verb topic state stream
      simp only [cut', header.next, Option.some.injEq, Prod.mk.injEq] at next
      obtain ⟨rfl, rfl, rfl⟩ := next
      exact ⟨verb ++ space :: topic ++ [newline], by simp, .header mode noSpace noBreak header⟩

theorem turn_of_next_frame (mode : stream.headerParsed = true) (sketch : stream.isSketch = true)
    (next : (pumpRound core cnx streamId (state, stream) buf).next = some (s', rest, out)) :
    ∃ used, buf = used ++ rest ∧ Turn core cnx streamId (state, stream) used out s' := by
  rw [pumpRound_sketch mode sketch] at next
  cases len : frameLen buf with
  | none =>
    rw [len] at next
    cases next
  | some n =>
    simp only [len] at next
    by_cases bound : n > kMaxSketchFrame
    · simp only [bound, if_true] at next
      cases next
    by_cases short : buf.length < 4 + n
    · simp only [bound, short, if_true, if_false] at next
      cases next
    simp only [bound, short, if_false, Round.next, List.map_cons, List.map_nil, Option.some.injEq,
      Prod.mk.injEq] at next
    obtain ⟨rfl, rfl, rfl⟩ := next
    have length : ((buf.drop 4).take n).length = n := by
      rw [List.length_take, List.length_drop]
      omega
    have front : (buf.take (4 + n)).drop 4 = (buf.drop 4).take n := by
      rw [List.drop_take, Nat.add_sub_cancel_left]
    refine ⟨buf.take (4 + n), (List.take_append_drop _ _).symm, .frame mode sketch ?_ ?_ front⟩
    · obtain ⟨b₀, b₁, b₂, b₃, bytes, rfl⟩ := exists_of_frameLen len
      rw [length, Nat.add_comm]
      exact len
    · rw [length]
      exact Nat.not_lt.mp bound

theorem turn_of_next_payload (mode : stream.headerParsed = true) (sketch : stream.isSketch = false)
    (next : (pumpRound core cnx streamId (state, stream) buf).next = some (s', rest, out)) :
    ∃ used, buf = used ++ rest ∧ Turn core cnx streamId (state, stream) used out s' := by
  have whole (enough : ¬ buf.length < kEntityPacketSize) :
      (buf.take kEntityPacketSize).length = kEntityPacketSize := by
    rw [List.length_take]
    omega
  cases pub : stream.isPub with
  | true =>
    rw [pumpRound_pub mode sketch pub] at next
    split at next
    · cases next
    · rename_i enough
      cases next
      exact ⟨_, (List.take_append_drop _ _).symm, .pub mode sketch pub (whole enough)⟩
  | false =>
    cases zone : stream.isZonePub with
    | true =>
      rw [pumpRound_zone mode sketch pub zone] at next
      split at next
      · cases next
      · rename_i enough
        cases next
        exact ⟨_, (List.take_append_drop _ _).symm, .zone mode sketch pub zone (whole enough)⟩
    | false =>
      rw [pumpRound_idle mode sketch pub zone] at next
      cases next

/-- Every round is a turn on the front of the buffer. -/
theorem turn_of_next (next : (pumpRound core cnx streamId s buf).next = some (s', rest, out)) :
    ∃ used, buf = used ++ rest ∧ Turn core cnx streamId s used out s' := by
  obtain ⟨state, stream⟩ := s
  cases mode : stream.headerParsed with
  | false => exact turn_of_next_header mode next
  | true =>
    cases sketch : stream.isSketch with
    | true => exact turn_of_next_frame mode sketch next
    | false => exact turn_of_next_payload mode sketch next

theorem Turn.ne_nil (turn : Turn core cnx streamId s used out s') : used ≠ [] := by
  intro empty
  cases turn with
  | bare => simp at empty
  | header => simp at empty
  | frame _ _ len =>
    rw [empty] at len
    cases len
  | pub _ _ _ length =>
    rw [empty] at length
    cases length
  | zone _ _ _ _ length =>
    rw [empty] at length
    cases length

theorem incremental (core : Core K) (cnx : Cnx) (streamId : StreamId) : Incremental (pumpRound core cnx streamId) where
  shrinks next := by
    obtain ⟨used, rfl, turn⟩ := turn_of_next next
    have positive := List.length_pos_iff.mpr turn.ne_nil
    rw [List.length_append]
    omega
  append next more := by
    obtain ⟨used, rfl, turn⟩ := turn_of_next next
    rw [List.append_assoc]
    exact turn.next _
  prompt := by
    intro s buf b s' rest out waits next
    obtain ⟨used, split, turn⟩ := turn_of_next next
    -- A turn that leaves something was already there before the last byte.
    rcases List.eq_nil_or_concat rest with rfl | ⟨rest', last, rfl⟩
    · rfl
    · rw [List.concat_eq_append, ← List.append_assoc] at split
      obtain ⟨rfl, -⟩ := List.append_inj' split rfl
      rw [turn.next] at waits
      cases waits

end Rounds
end WeftWarp.Fanout
