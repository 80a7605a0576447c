import FGDB.Server.Buffer

/-!
# Reading a request

A request reads a four-byte length and then the message. The first read takes
the length and whatever follows it on the stack and copies the message part into
a buffer of the announced size; the later reads go straight into the buffer. The
results of the successive calls to recv are an input.
-/

namespace FGDB.Server

open Foundation

/-- What one call to recv meets: nothing to read yet, an error, or up to so many bytes. -/
inductive RecvOutcome
  | again
  | failed
  | data (count : ℕ)
  deriving DecidableEq, Repr

/-- A connection: the bytes still to come and what the calls to recv will meet. -/
structure Net where
  stream : List UInt8
  outcomes : List RecvOutcome

inductive Received
  | again
  | failed
  | bytes (data : List UInt8)

/-- With no outcome left there is nothing to read. -/
def recv (net : Net) (count : ℕ) : Received × Net :=
  match net.outcomes with
  | [] => (.again, net)
  | .again :: rest => (.again, ⟨net.stream, rest⟩)
  | .failed :: rest => (.failed, ⟨net.stream, rest⟩)
  | .data size :: rest =>
    (.bytes (net.stream.take (min size count)), ⟨net.stream.drop (min size count), rest⟩)

inductive State
  | init
  | read
  | write
  | parse
  | service
  deriving DecidableEq, Repr

/-- `req_t`; a missing buffer is NULL. -/
structure Req where
  state : State
  buf : Option Buf

/-- How a call of the parser ends: it waits for the next event, it hands the buffer to the parser
of messages, or the request is gone. -/
inductive Verdict
  | waiting (req : Req)
  | parsing (req : Req)
  | destroyed

def maxMessageSize : ℕ := 10 * 2 ^ 10

def initRequest : Req := ⟨.init, none⟩

/-- `!buffer_left(buf)`: the macro is not in parentheses, so the negation takes the total alone. -/
def notBufferLeft (buf : Buf) : ℕ := wrap64 ((if buf.total = 0 then 1 else 0) + 2 ^ 64 - buf.used)

/-- The READ case. The block of a buffer is eight bytes longer than its total. -/
def parseRead (req : Req) (net : Net) : Outcome (Verdict × Net) :=
  match req.buf with
  | none => .error .nullPointer
  | some buf =>
    if bufferLeft buf > 0 then
      match recv net (bufferLeft buf) with
      | (.again, net) => .ok (.waiting req, net)
      | (.failed, net) => .ok (.destroyed, net)
      | (.bytes data, net) =>
        if buf.stop + data.length > buf.total + 8 then .error .outOfBounds
        else
          let buf := { buf with
            ptr := buf.ptr.store buf.stop data
            used := wrap64 (buf.used + data.length) }
          if data.length = 0 ∨ notBufferLeft buf ≠ 0 then .ok (.parsing ⟨.parse, some buf⟩, net)
          else .ok (.waiting ⟨.read, some buf⟩, net)
    else .ok (.parsing ⟨.parse, some buf⟩, net)

/-- The INIT case, which goes on to READ. -/
def parseInit (heap : Memory) (req : Req) (net : Net) : Outcome (Verdict × Net) :=
  match recv net 1023 with
  | (.again, net) => .ok (.waiting req, net)
  | (.failed, net) => .ok (.destroyed, net)
  | (.bytes data, net) => do
    let buffer := overwrite (List.replicate 1024 0) data
    let msgLen := leValue (buffer.take 4)
    if msgLen > maxMessageSize then return (.destroyed, net)
    else
      let bytes2copy := if data.length > msgLen then msgLen else data.length
      let (src, _) ← takeBytes bytes2copy (buffer.drop 4)
      parseRead ⟨.read, some (bufferPush (initBuffer heap msgLen) src).1⟩ net

def parseRequest (heap : Memory) (req : Req) (net : Net) : Outcome (Verdict × Net) :=
  match req.state with
  | .init => parseInit heap req net
  | .read => parseRead req net
  | .parse => .ok (.parsing req, net)
  | .write | .service => .ok (.destroyed, net)

/-- So many read events, as long as the request waits for one. -/
def serve (heap : Memory) : ℕ → Req → Net → Outcome (Verdict × Net)
  | 0, req, net => .ok (.waiting req, net)
  | events + 1, req, net => do
    match ← parseRequest heap req net with
    | (.waiting req, net) => serve heap events req net
    | (.parsing req, net) => return (.parsing req, net)
    | (.destroyed, net) => return (.destroyed, net)

/-- The bytes a client sends for a payload. -/
def message (payload : List UInt8) : List UInt8 := leBytes 4 payload.length ++ payload

/-- No fault, and a buffer handed to the parser of messages holds the payload. -/
def Delivers (payload : List UInt8) (result : Outcome (Verdict × Net)) : Prop :=
  ∃ verdict net, result = .ok (verdict, net) ∧ ∀ req, verdict = .parsing req →
    ∃ buf, req.buf = some buf ∧ buf.used = payload.length ∧ buf.contents = payload

/-- Whatever the heap holds and however many events there have been so far. -/
def ReceivesPayload (payload : List UInt8) (outcomes : List RecvOutcome) : Prop :=
  ∀ heap events, Delivers payload
    (serve heap events initRequest ⟨message payload, outcomes⟩)

/-- The stream is cut into chunks with nothing to read between them. -/
def Segmentation (outcomes : List RecvOutcome) : Prop :=
  ∀ outcome ∈ outcomes, outcome = .again ∨ ∃ count, outcome = .data (count + 1)

/-- The sizes of the chunks that the calls to recv are ready to return. -/
def chunkSizes : List RecvOutcome → List ℕ
  | [] => []
  | .data count :: rest => count :: chunkSizes rest
  | .again :: rest => chunkSizes rest
  | .failed :: rest => chunkSizes rest

/-- What the first read takes of a first chunk of the given size. -/
def firstRead (payload : List UInt8) (first : ℕ) : ℕ := min first (min 1023 (payload.length + 4))

/-- What the first read makes of the length in front of the payload. -/
def announced (payload : List UInt8) (first : ℕ) : ℕ :=
  payload.length % 256 ^ firstRead payload first

/-- The chunks that the request takes without harm. The first read fits behind the length in the
stack buffer; and either the message goes on and nothing more has come, or the first read saw the
length, the second read ends the message, and the payload has only zeros behind the bytes of it
in the first read. -/
def Harmless (payload : List UInt8) : List ℕ → Prop
  | [] => True
  | first :: rest =>
    min (firstRead payload first) (announced payload first) ≤ 1020 ∧
      ((firstRead payload first < announced payload first ∧ rest = []) ∨
        (announced payload first = payload.length ∧
          payload.length ≤ firstRead payload first + rest.headD 0 ∧
          ∀ byte ∈ payload.drop (firstRead payload first - 4), byte = 0))

theorem delivers_ok (payload : List UInt8) (verdict : Verdict) (net : Net) :
    Delivers payload (.ok (verdict, net)) ↔ ∀ req, verdict = .parsing req →
      ∃ buf, req.buf = some buf ∧ buf.used = payload.length ∧ buf.contents = payload := by
  constructor
  · rintro ⟨verdict', net', h, hreq⟩
    obtain ⟨rfl, rfl⟩ : verdict = verdict' ∧ net = net' := by simpa using h
    exact hreq
  · intro hreq
    exact ⟨verdict, net, rfl, hreq⟩

theorem not_delivers_error (payload : List UInt8) (fault : Fault) :
    ¬ Delivers payload (.error fault) := by
  rintro ⟨verdict, net, h, -⟩
  cases h

/-- A parser step whose request waits is taken out of every run. -/
theorem forall_serve_of_waiting {payload : List UInt8} {heap : Memory} {req req' : Req}
    {net net' : Net} (h : parseRequest heap req net = .ok (.waiting req', net')) :
    (∀ events, Delivers payload (serve heap events req net)) ↔
      ∀ events, Delivers payload (serve heap events req' net') := by
  have hserve (events : ℕ) : serve heap (events + 1) req net = serve heap events req' net' := by
    simp only [serve, h, ok_bind]
  constructor
  · intro hall events
    rw [← hserve]
    exact hall (events + 1)
  · intro hall events
    cases events with
    | zero => simp [serve, delivers_ok]
    | succ events =>
      rw [hserve]
      exact hall events

/-- Two requests on which the parser does the same have the same runs, up to waiting. -/
theorem forall_serve_congr {payload : List UInt8} {heap : Memory} {req req' : Req}
    {net net' : Net} (h : parseRequest heap req net = parseRequest heap req' net') :
    (∀ events, Delivers payload (serve heap events req net)) ↔
      ∀ events, Delivers payload (serve heap events req' net') := by
  constructor <;> intro hall events <;> cases events with
  | zero => simp [serve, delivers_ok]
  | succ events =>
    have := hall (events + 1)
    simp only [serve, h] at this ⊢
    exact this

theorem forall_serve_of_parsing {payload : List UInt8} {heap : Memory} {req req' : Req}
    {net net' : Net} (h : parseRequest heap req net = .ok (.parsing req', net')) :
    (∀ events, Delivers payload (serve heap events req net)) ↔
      Delivers payload (.ok (.parsing req', net')) := by
  constructor
  · intro hall
    have := hall 1
    simpa only [serve, h, ok_bind, pure_eq_ok] using this
  · intro hdelivers events
    cases events with
    | zero => simp [serve, delivers_ok]
    | succ events => simpa only [serve, h, ok_bind, pure_eq_ok] using hdelivers

theorem not_forall_serve_of_error {payload : List UInt8} {heap : Memory} {req : Req} {net : Net}
    {fault : Fault} (h : parseRequest heap req net = .error fault) :
    ¬ ∀ events, Delivers payload (serve heap events req net) := by
  intro hall
  have := hall 1
  simp only [serve, h, error_bind] at this
  exact not_delivers_error _ _ this

/-- With nothing to read a waiting request waits for ever. -/
theorem forall_serve_of_stuck {payload : List UInt8} {heap : Memory} {req : Req} {net : Net}
    (h : parseRequest heap req net = .ok (.waiting req, net)) (events : ℕ) :
    Delivers payload (serve heap events req net) := by
  induction events with
  | zero => simp [serve, delivers_ok]
  | succ events ih => simpa only [serve, h, ok_bind] using ih

section Chunks

variable {payload : List UInt8} {first : ℕ}

theorem announced_le (payload : List UInt8) (first : ℕ) :
    announced payload first ≤ payload.length := Nat.mod_le _ _

theorem take_message (payload : List UInt8) (first : ℕ) :
    (message payload).take (min first 1023) = (message payload).take (firstRead payload first) := by
  rw [List.take_eq_take_iff]
  simp only [message, firstRead, List.length_append, length_leBytes]
  omega

theorem drop_message (payload : List UInt8) (first : ℕ) :
    (message payload).drop (min first 1023) = (message payload).drop (firstRead payload first) := by
  by_cases h : min first 1023 = firstRead payload first
  · rw [h]
  · have hlength : (message payload).length = payload.length + 4 := by
      simp [message, add_comm]
    unfold firstRead at h
    have hlarge : (message payload).length ≤ min first 1023 := by omega
    have hread : (message payload).length ≤ firstRead payload first := by
      unfold firstRead
      omega
    rw [List.drop_of_length_le hlarge, List.drop_of_length_le hread]

theorem length_firstRead (payload : List UInt8) (first : ℕ) :
    ((message payload).take (firstRead payload first)).length = firstRead payload first := by
  simp only [message, firstRead, List.length_take, List.length_append, length_leBytes]
  omega

/-- The length that the first read sees: the bytes of it that have come, and zeros. -/
theorem leValue_firstRead (hpayload : payload.length < 256 ^ 4) :
    leValue ((overwrite (List.replicate 1024 0)
      ((message payload).take (firstRead payload first))).take 4) = announced payload first := by
  have hread : firstRead payload first ≤ 1023 := by
    unfold firstRead
    omega
  unfold announced
  rw [overwrite, List.drop_replicate, length_firstRead]
  by_cases h : firstRead payload first ≤ 4
  · obtain ⟨more, hmore⟩ := Nat.exists_eq_add_of_le h
    have htake : (message payload).take (firstRead payload first) =
        leBytes (firstRead payload first) payload.length := by
      rw [message, hmore, leBytes_add, List.append_assoc, List.take_left' (by simp)]
    rw [htake, List.take_append, length_leBytes, List.take_of_length_le (by simpa using h),
      List.take_replicate, leValue_append_zeros, leValue_leBytes]
  · have htake : ((message payload).take (firstRead payload first) ++
        List.replicate (1024 - firstRead payload first) 0).take 4 = leBytes 4 payload.length := by
      rw [List.take_append_of_le_length (by rw [length_firstRead]; omega), List.take_take,
        min_eq_left (by omega), message, List.take_left' (by simp)]
    rw [htake, leValue_leBytes_of_lt hpayload, Nat.mod_eq_of_lt]
    exact lt_of_lt_of_le hpayload (Nat.pow_le_pow_right (by decide) (by omega))

/-- The bytes behind the length in the stack buffer. -/
theorem drop_firstRead {count : ℕ} (hcount : count ≤ firstRead payload first)
    (hroom : count ≤ 1020) :
    ((overwrite (List.replicate 1024 0)
      ((message payload).take (firstRead payload first))).drop 4).take count =
      (payload.take (firstRead payload first - 4) ++ List.replicate 4 0).take count := by
  have hread : firstRead payload first ≤ 1023 := by
    unfold firstRead
    omega
  have hbound : firstRead payload first ≤ payload.length + 4 := by
    unfold firstRead
    omega
  have hmessage : ((message payload).take (firstRead payload first)).drop 4 =
      payload.take (firstRead payload first - 4) := by
    rw [List.drop_take, message, List.drop_left' (by simp)]
  rw [overwrite, List.drop_replicate, length_firstRead, List.drop_append, length_firstRead,
    hmessage, List.drop_replicate, List.take_append, List.take_append, List.take_replicate,
    List.take_replicate, List.length_take]
  congr 2
  omega

/-- What INIT copies into the buffer. -/
def copied (payload : List UInt8) (first : ℕ) : List UInt8 :=
  (payload.take (firstRead payload first - 4) ++ List.replicate 4 0).take
    (min (firstRead payload first) (announced payload first))

theorem length_copied (payload : List UInt8) (first : ℕ) : (copied payload first).length =
    min (firstRead payload first) (announced payload first) := by
  have hbound : firstRead payload first ≤ payload.length + 4 := by
    unfold firstRead
    omega
  simp only [copied, List.length_take, List.length_append, List.length_replicate]
  omega

/-- The buffer when INIT goes on to READ. -/
def firstBuf (heap : Memory) (payload : List UInt8) (first : ℕ) : Buf where
  total := announced payload first
  used := min (firstRead payload first) (announced payload first)
  start := 0
  stop := min (firstRead payload first) (announced payload first)
  ptr := heap.store 0 (copied payload first)

theorem contents_firstBuf (heap : Memory) (payload : List UInt8) (first : ℕ) :
    (firstBuf heap payload first).contents = copied payload first := by
  unfold Buf.contents firstBuf
  exact Memory.load_store_of_length heap 0 _ (length_copied payload first)

theorem parseRequest_first (hpayload : payload.length ≤ maxMessageSize) (heap : Memory)
    (rest : List RecvOutcome) :
    parseRequest heap initRequest ⟨message payload, .data first :: rest⟩ =
      if min (firstRead payload first) (announced payload first) ≤ 1020 then
        parseRequest heap ⟨.read, some (firstBuf heap payload first)⟩
          ⟨(message payload).drop (firstRead payload first), rest⟩
      else .error .outOfBounds := by
  have hlength : payload.length < 256 ^ 4 := lt_of_le_of_lt hpayload (by decide)
  have hannounced : ¬ announced payload first > maxMessageSize :=
    Nat.not_lt.mpr ((announced_le payload first).trans hpayload)
  have hcopy : (if firstRead payload first > announced payload first then announced payload first
      else firstRead payload first) = min (firstRead payload first) (announced payload first) := by
    split <;> omega
  have hstack : ((overwrite (List.replicate 1024 0)
      ((message payload).take (firstRead payload first))).drop 4).length = 1020 := by
    have hread : firstRead payload first ≤ 1023 := by
      unfold firstRead
      omega
    rw [List.length_drop, overwrite, List.length_append, List.length_drop, length_firstRead,
      List.length_replicate]
    omega
  simp only [parseRequest, initRequest, parseInit, recv, take_message, drop_message,
    leValue_firstRead hlength, if_neg hannounced, length_firstRead, hcopy, takeBytes, hstack]
  split
  · next hroom =>
    have hcopied := @drop_firstRead payload first _ (min_le_left _ (announced payload first)) hroom
    have hpush := @bufferPush_init heap (announced payload first) (copied payload first)
      (by rw [length_copied]; exact min_le_right _ _)
    rw [ok_bind, hcopied]
    change parseRead ⟨.read, some (bufferPush (initBuffer heap (announced payload first))
      (copied payload first)).1⟩ _ = _
    rw [hpush, length_copied]
    rfl
  · rfl

theorem zeros_shift_eq_iff (bytes : List UInt8) :
    (List.replicate 4 0 ++ bytes).take bytes.length = bytes ↔ ∀ byte ∈ bytes, byte = 0 := by
  constructor
  · intro h
    have hzero (index : ℕ) : ∀ hindex : index < bytes.length, bytes[index] = 0 := by
      induction index using Nat.strong_induction_on with
      | _ index ih =>
        intro hindex
        have hget : bytes[index]? = ((List.replicate 4 0 ++ bytes).take bytes.length)[index]? := by
          rw [h]
        rw [List.getElem?_take_of_lt hindex, List.getElem?_append, List.getElem?_replicate,
          List.getElem?_eq_getElem hindex, List.length_replicate] at hget
        by_cases hfour : index < 4
        · simpa [hfour] using hget
        · have hback : index - 4 < bytes.length := by omega
          rw [if_neg hfour, List.getElem?_eq_getElem hback, ih (index - 4) (by omega)] at hget
          exact Option.some.inj hget
    intro byte hbyte
    obtain ⟨index, hindex, rfl⟩ := List.getElem_of_mem hbyte
    exact hzero index hindex
  · intro h
    rw [List.eq_replicate_of_mem h, List.replicate_append_replicate, List.length_replicate,
      List.take_replicate, min_eq_left (by omega)]

theorem bufferLeft_firstBuf (hpayload : payload.length ≤ maxMessageSize) (heap : Memory) :
    bufferLeft (firstBuf heap payload first) =
      announced payload first - firstRead payload first := by
  have hannounced := (announced_le payload first).trans hpayload
  rw [bufferLeft_of_le (min_le_right _ _) (lt_of_le_of_lt hannounced (by decide))]
  simp only [firstBuf]
  omega

/-- The buffer after the second read of data. -/
def secondBuf (heap : Memory) (payload : List UInt8) (first second : ℕ) : Buf :=
  let data := ((message payload).drop (firstRead payload first)).take
    (min second (announced payload first - firstRead payload first))
  { firstBuf heap payload first with
    ptr := (firstBuf heap payload first).ptr.store (firstRead payload first) data
    used := firstRead payload first +
      min second (announced payload first - firstRead payload first) }

theorem contents_secondBuf (heap : Memory) {second : ℕ}
    (hmore : firstRead payload first < announced payload first) :
    (secondBuf heap payload first second).contents = copied payload first ++
      ((message payload).drop (firstRead payload first)).take
        (min second (announced payload first - firstRead payload first)) := by
  have hcopied : (copied payload first).length = firstRead payload first := by
    rw [length_copied, min_eq_left hmore.le]
  have hdata : (((message payload).drop (firstRead payload first)).take
      (min second (announced payload first - firstRead payload first))).length =
        min second (announced payload first - firstRead payload first) := by
    have := announced_le payload first
    simp only [message, List.length_take, List.length_drop, List.length_append, length_leBytes]
    omega
  unfold Buf.contents secondBuf firstBuf
  simp only
  rw [Memory.load_add, zero_add,
    Memory.load_store_of_disjoint _ _ _ _ (Or.inl (by omega)),
    Memory.load_store_of_length _ _ _ hcopied, Memory.load_store_of_length _ _ _ hdata]

theorem parseRead_second (hpayload : payload.length ≤ maxMessageSize)
    (hmore : firstRead payload first < announced payload first)
    (hfirst : 0 < firstRead payload first) (heap : Memory) (second : ℕ)
    (rest : List RecvOutcome) :
    parseRequest heap ⟨.read, some (firstBuf heap payload first)⟩
        ⟨(message payload).drop (firstRead payload first), .data second :: rest⟩ =
      .ok (.parsing ⟨.parse, some (secondBuf heap payload first second)⟩,
        ⟨((message payload).drop (firstRead payload first)).drop
          (min second (announced payload first - firstRead payload first)), rest⟩) := by
  have hannounced := announced_le payload first
  have hbound : maxMessageSize < 2 ^ 16 := by decide
  have hdata : (((message payload).drop (firstRead payload first)).take
      (min second (announced payload first - firstRead payload first))).length =
        min second (announced payload first - firstRead payload first) := by
    simp only [message, List.length_take, List.length_drop, List.length_append, length_leBytes]
    omega
  have hleft : announced payload first - firstRead payload first > 0 := by omega
  have hused : wrap64 (firstRead payload first + min second (announced payload first -
      firstRead payload first)) = firstRead payload first + min second (announced payload first -
      firstRead payload first) := by
    unfold wrap64
    omega
  simp only [parseRequest, parseRead, bufferLeft_firstBuf hpayload, if_pos hleft, recv, hdata]
  simp only [firstBuf, min_eq_left hmore.le, hused]
  rw [if_neg (by omega), if_pos]
  · simp only [secondBuf, firstBuf, min_eq_left hmore.le]
  · right
    simp only [notBufferLeft, wrap64]
    rw [if_neg (by omega)]
    omega

/-- The run rule of READ, over the empty reads in front of the second chunk. -/
theorem forall_serve_read (hpayload : payload.length ≤ maxMessageSize)
    (hmore : firstRead payload first < announced payload first)
    (hfirst : 0 < firstRead payload first) (heap : Memory) {rest : List RecvOutcome}
    (hrest : Segmentation rest) :
    (∀ events, Delivers payload (serve heap events ⟨.read, some (firstBuf heap payload first)⟩
        ⟨(message payload).drop (firstRead payload first), rest⟩)) ↔
      ∀ second ∈ (chunkSizes rest).head?, firstRead payload first +
        min second (announced payload first - firstRead payload first) = payload.length ∧
          (secondBuf heap payload first second).contents = payload := by
  have hleft : bufferLeft (firstBuf heap payload first) > 0 := by
    rw [bufferLeft_firstBuf hpayload]
    omega
  induction rest with
  | nil =>
    have hstuck : parseRequest heap ⟨.read, some (firstBuf heap payload first)⟩
        ⟨(message payload).drop (firstRead payload first), []⟩ =
          .ok (.waiting ⟨.read, some (firstBuf heap payload first)⟩,
            ⟨(message payload).drop (firstRead payload first), []⟩) := by
      simp only [parseRequest, parseRead, if_pos hleft, recv]
    simp only [chunkSizes, List.head?_nil, Option.mem_def, reduceCtorEq, false_implies,
      implies_true, iff_true]
    exact forall_serve_of_stuck hstuck
  | cons outcome rest ih =>
    rcases hrest outcome (by simp) with rfl | ⟨count, rfl⟩
    · have hwait : parseRequest heap ⟨.read, some (firstBuf heap payload first)⟩
          ⟨(message payload).drop (firstRead payload first), .again :: rest⟩ =
            .ok (.waiting ⟨.read, some (firstBuf heap payload first)⟩,
              ⟨(message payload).drop (firstRead payload first), rest⟩) := by
        simp only [parseRequest, parseRead, if_pos hleft, recv]
      rw [forall_serve_of_waiting hwait]
      exact ih fun outcome houtcome ↦ hrest outcome (by simp [houtcome])
    · have hparse := parseRead_second hpayload hmore hfirst heap (count + 1) rest
      rw [forall_serve_of_parsing hparse, delivers_ok]
      simp [chunkSizes, secondBuf]

/-- The payload with four zeros between the part in the first read and the rest. -/
def shifted (payload : List UInt8) (first : ℕ) : List UInt8 :=
  payload.take (firstRead payload first - 4) ++ List.replicate 4 0 ++
    payload.drop (firstRead payload first - 4)

theorem shifted_eq_iff (payload : List UInt8) (first : ℕ) :
    (shifted payload first).take payload.length = payload ↔
      ∀ byte ∈ payload.drop (firstRead payload first - 4), byte = 0 := by
  rw [← zeros_shift_eq_iff]
  have hsplit : (shifted payload first).take payload.length =
      payload.take (firstRead payload first - 4) ++ (List.replicate 4 0 ++
        payload.drop (firstRead payload first - 4)).take
          (payload.drop (firstRead payload first - 4)).length := by
    rw [shifted, List.append_assoc, List.take_append,
      List.take_of_length_le (List.length_take_le' _ _), List.length_take, List.length_drop]
    congr 2
    omega
  rw [hsplit]
  constructor
  · intro h
    rw [← List.append_right_inj (payload.take (firstRead payload first - 4)),
      List.take_append_drop]
    exact h
  · intro h
    rw [h, List.take_append_drop]

theorem copied_eq_shifted (payload : List UInt8) (first : ℕ) : copied payload first =
    (shifted payload first).take (min (firstRead payload first) (announced payload first)) := by
  have hbound : firstRead payload first ≤ payload.length + 4 := by
    unfold firstRead
    omega
  rw [shifted, List.take_append_of_le_length]
  · rfl
  · simp only [List.length_append, List.length_take, List.length_replicate]
    omega

/-- Once the first read has seen the length, the next read goes on where the shifted payload does. -/
theorem drop_message_eq_shifted (h : announced payload first = payload.length) :
    (message payload).drop (firstRead payload first) =
      (shifted payload first).drop (firstRead payload first) := by
  have hbound : firstRead payload first ≤ payload.length + 4 := by
    unfold firstRead
    omega
  by_cases hprefix : firstRead payload first < 4
  · have hlt : payload.length < 256 ^ firstRead payload first := by
      rw [← h]
      exact Nat.mod_lt _ (Nat.pow_pos (by decide))
    have hbytes : leBytes 4 payload.length = leBytes (firstRead payload first) payload.length ++
        List.replicate (4 - firstRead payload first) 0 := by
      calc leBytes 4 payload.length
          = leBytes (firstRead payload first + (4 - firstRead payload first)) payload.length := by
            congr 1
            omega
        _ = _ := by rw [leBytes_add, Nat.div_eq_of_lt hlt, leBytes_zero]
    rw [message, hbytes, shifted, Nat.sub_eq_zero_of_le hprefix.le, List.append_assoc,
      List.drop_left' (length_leBytes _ _), List.take_zero, List.nil_append, List.drop_zero,
      List.drop_append_of_le_length (by simpa using hprefix.le), List.drop_replicate]
  · have hfront : (payload.take (firstRead payload first - 4) ++
        List.replicate 4 (0 : UInt8)).length = firstRead payload first := by
      simp only [List.length_append, List.length_take, List.length_replicate]
      omega
    rw [shifted, List.drop_left' hfront, message, List.drop_append, length_leBytes,
      List.drop_of_length_le (by simpa using Nat.le_of_not_lt hprefix), List.nil_append]

theorem contents_second_eq_shifted (heap : Memory) {second : ℕ}
    (hmore : firstRead payload first < announced payload first)
    (h : announced payload first = payload.length)
    (hsecond : payload.length ≤ firstRead payload first + second) :
    (secondBuf heap payload first second).contents =
      (shifted payload first).take payload.length := by
  have hsum : payload.length = firstRead payload first +
      min second (payload.length - firstRead payload first) := by
    omega
  rw [contents_secondBuf heap hmore, copied_eq_shifted, min_eq_left hmore.le,
    drop_message_eq_shifted h, h, ← List.take_add, ← hsum]

theorem forall_serve_first (hpayload : payload.length ≤ maxMessageSize)
    (hfirst : 0 < firstRead payload first) (heap : Memory) {rest : List RecvOutcome}
    (hrest : Segmentation rest) :
    (∀ events, Delivers payload (serve heap events initRequest
      ⟨message payload, .data first :: rest⟩)) ↔
        Harmless payload (first :: chunkSizes rest) := by
  have hparse := @parseRequest_first payload first hpayload heap rest
  by_cases hroom : min (firstRead payload first) (announced payload first) ≤ 1020
  · rw [if_pos hroom] at hparse
    rw [forall_serve_congr hparse, Harmless, and_iff_right hroom]
    by_cases hmore : firstRead payload first < announced payload first
    · rw [forall_serve_read hpayload hmore hfirst heap hrest]
      cases hsizes : chunkSizes rest with
      | nil => simp [hmore]
      | cons second sizes =>
        simp only [List.head?_cons, Option.mem_def, Option.some.injEq, forall_eq',
          List.headD_cons, reduceCtorEq, and_false, false_or]
        have hannounced := announced_le payload first
        constructor
        · intro h
          have hlength : announced payload first = payload.length := by omega
          have hsecond : payload.length ≤ firstRead payload first + second := by omega
          have hcontents := contents_second_eq_shifted heap hmore hlength hsecond
          exact ⟨hlength, hsecond, (shifted_eq_iff payload first).mp (hcontents ▸ h.2)⟩
        · intro h
          have hcontents := contents_second_eq_shifted heap hmore h.1 h.2.1
          refine ⟨by omega, ?_⟩
          rw [hcontents]
          exact (shifted_eq_iff payload first).mpr h.2.2
    · have hannounced := Nat.le_of_not_lt hmore
      have hdone : parseRequest heap ⟨.read, some (firstBuf heap payload first)⟩
          ⟨(message payload).drop (firstRead payload first), rest⟩ =
            .ok (.parsing ⟨.parse, some (firstBuf heap payload first)⟩,
              ⟨(message payload).drop (firstRead payload first), rest⟩) := by
        have hleft : ¬ bufferLeft (firstBuf heap payload first) > 0 := by
          rw [bufferLeft_firstBuf hpayload]
          omega
        simp only [parseRequest, parseRead, if_neg hleft]
      have hused : (firstBuf heap payload first).used = announced payload first :=
        min_eq_right hannounced
      have hcontents : (firstBuf heap payload first).contents =
          (shifted payload first).take (announced payload first) := by
        rw [contents_firstBuf, copied_eq_shifted, min_eq_right hannounced]
      rw [forall_serve_of_parsing hdone, delivers_ok]
      simp only [Verdict.parsing.injEq, forall_eq', Option.some.injEq, exists_eq_left', hused,
        hcontents, hmore, false_and, false_or]
      constructor
      · intro h
        have hshifted := h.2
        rw [h.1, shifted_eq_iff] at hshifted
        exact ⟨h.1, by omega, hshifted⟩
      · intro h
        refine ⟨h.1, ?_⟩
        rw [h.1]
        exact (shifted_eq_iff payload first).mpr h.2.2
  · rw [if_neg hroom] at hparse
    have hnever := @not_forall_serve_of_error payload heap _ _ _ hparse
    simp only [hnever, Harmless, hroom, false_and]

end Chunks

/-- For every payload and every cut of its stream, what the request reads is the payload exactly
when the cut is harmless. -/
theorem receivesPayload_iff {payload : List UInt8} {outcomes : List RecvOutcome}
    (hpayload : payload.length ≤ maxMessageSize) (hcut : Segmentation outcomes) :
    ReceivesPayload payload outcomes ↔ Harmless payload (chunkSizes outcomes) := by
  have hheap (heap : Memory) : (∀ events, Delivers payload
      (serve heap events initRequest ⟨message payload, outcomes⟩)) ↔
        Harmless payload (chunkSizes outcomes) := by
    induction outcomes with
    | nil =>
      have hstuck : parseRequest heap initRequest ⟨message payload, []⟩ =
          .ok (.waiting initRequest, ⟨message payload, []⟩) := rfl
      simp only [chunkSizes, Harmless, iff_true]
      exact forall_serve_of_stuck hstuck
    | cons outcome rest ih =>
      have hrest : Segmentation rest := fun outcome houtcome ↦ hcut outcome (by simp [houtcome])
      rcases hcut outcome (by simp) with rfl | ⟨count, rfl⟩
      · have hwait : parseRequest heap initRequest ⟨message payload, .again :: rest⟩ =
            .ok (.waiting initRequest, ⟨message payload, rest⟩) := rfl
        rw [forall_serve_of_waiting hwait]
        exact ih hrest
      · apply forall_serve_first hpayload _ heap hrest
        unfold firstRead
        omega
  constructor
  · intro hreceives
    exact (hheap fun _ ↦ 0).mp (hreceives fun _ ↦ 0)
  · intro hharmless heap
    exact (hheap heap).mpr hharmless

/-- A message in one chunk, behind a read that finds nothing. -/
theorem receivesPayload_one_chunk : ReceivesPayload [0x92, 0x01, 0xa1, 0x6b] [.again, .data 8] :=
  (receivesPayload_iff (by decide) (by simp [Segmentation])).mpr (by simp [chunkSizes, Harmless,
    firstRead, announced])

/-- The first chunk holds only the first half of the payload. -/
theorem not_receivesPayload_two_chunks :
    ¬ ReceivesPayload [0x92, 0x01, 0xa1, 0x6b] [.data 6, .data 2] := by
  intro hreceives
  have hrest : Segmentation [.data 2] := by simp [Segmentation]
  have hharmless := (forall_serve_first (by decide) (by decide) _ hrest).mp
    (hreceives fun _ ↦ 0)
  simp [chunkSizes, Harmless, firstRead] at hharmless

end FGDB.Server
