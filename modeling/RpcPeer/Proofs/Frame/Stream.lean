import Mathlib.Data.List.Forall2
import RpcPeer.Proofs.Frame.Lines
import RpcPeer.Session.Writer

/-! A stream of frames as a sequence of blocks, each of which yields one result. -/
namespace RpcPeer.Frame
open Text.Utf8 (encode)

/-- The last length that some header lines give. -/
def lastLength (headers : List HeaderLine) : Option Nat :=
  (headers.filterMap HeaderLine.length?).getLast?

/-- A header block with its body. -/
structure Block where
  /-- Blank lines before the headers. -/
  lead : List BlankLine := []
  headers : List HeaderLine
  nonempty : headers ≠ []
  /-- The line that ends the headers. -/
  separator : BlankLine
  body : List UInt8
  /-- Without a length there is no body. -/
  sized : body.length = (lastLength headers).getD 0
  /-- The bytes of a body can stand in a buffer. -/
  fits : body.length < bufferBound

namespace Block

def length? (b : Block) : Option Nat := lastLength b.headers

def bytes (b : Block) : List UInt8 :=
  b.lead.flatMap (lineBytes ·.text) ++ (b.headers.flatMap (lineBytes ·.text) ++
    (lineBytes b.separator.text ++ b.body))

/-- What a block is read as. -/
inductive Yields (b : Block) : Item → Prop
  | text (cs : List Char) (h : b.length?.isSome = true) (hb : b.body = encode cs) :
    b.Yields (.body (String.ofList cs))
  | garbled (h : b.length?.isSome = true) (hb : ∀ cs, b.body ≠ encode cs) :
    b.Yields (.error .invalidUtf8)
  | unframed (h : b.length? = none) :
    b.Yields (.error (.invalidHeader "missing Content-Length"))

end Block

section
variable (max : Nat) (h : Headers) (rest : List UInt8)

theorem step_readHeaders_header (l : HeaderLine) :
    (readHeaders max true h (lineBytes l.text ++ rest)).step =
      (readHeaders max true (l.after h) rest).step := by
  obtain ⟨log, hl⟩ := readLine_header h l
  rw [readHeaders_lineBytes l.oneLine, hl]
  rfl

theorem step_readHeaders_headers (headers : List HeaderLine) :
    (readHeaders max true h (headers.flatMap (lineBytes ·.text) ++ rest)).step =
      (readHeaders max true (headers.foldl (fun h l => l.after h) h) rest).step := by
  induction headers generalizing h with
  | nil => rfl
  | cons l ls ih =>
    rw [List.flatMap_cons, List.append_assoc, step_readHeaders_header, ih]
    rfl

/-- Blank lines before the headers are passed over. -/
theorem step_readHeaders_lead (lead : List BlankLine) :
    (readHeaders max true {} (lead.flatMap (lineBytes ·.text) ++ rest)).step =
      (readHeaders max true {} rest).step := by
  induction lead with
  | nil => rfl
  | cons l ls ih =>
    rw [List.flatMap_cons, List.append_assoc, readHeaders_lineBytes l.oneLine, readLine_blank]
    exact ih

theorem step_readHeaders_separator (l : BlankLine) (hs : h.started = true) :
    (readHeaders max true h (lineBytes l.text ++ rest)).step =
      (afterHeaders max true h rest).step := by
  rw [readHeaders_lineBytes l.oneLine, readLine_blank, if_pos hs]

end

theorem lastLength_cons (l : HeaderLine) (ls : List HeaderLine) :
    lastLength (l :: ls) = (lastLength ls).or l.length? := by
  unfold lastLength
  cases hl : l.length? with
  | none => simp [hl]
  | some n => simp [hl, List.getLast?_cons]

theorem foldl_after (headers : List HeaderLine) (h : Headers) :
    headers.foldl (fun h l => l.after h) h =
      ⟨h.started || !headers.isEmpty, (lastLength headers).or h.length⟩ := by
  induction headers generalizing h with
  | nil => simp [lastLength]
  | cons l ls ih =>
    rw [List.foldl_cons, ih, lastLength_cons]
    simp [HeaderLine.after, Option.or_assoc]

/-- An item as the end of an attempt that leaves the bytes `rest`. -/
def Item.step (rest : List UInt8) : Item → Step
  | .body text => .frame text rest
  | .error e => .failed e rest
  | .ended => .finished

namespace Block

theorem length_body (b : Block) {n : Nat} (hn : b.length? = some n) : b.body.length = n := by
  have := b.sized
  rwa [show lastLength b.headers = some n from hn] at this

theorem step_readBody (b : Block) {n : Nat} (hn : b.length? = some n) (rest : List UInt8) :
    ∃ item, b.Yields item ∧ (readBody true n (b.body ++ rest)).step = item.step rest := by
  have hlen := b.length_body hn
  have htake : (b.body ++ rest).take n = b.body := by
    rw [← hlen, List.take_left]
  have hdrop : (b.body ++ rest).drop n = rest := by
    rw [← hlen, List.drop_left]
  have hlong : ¬ (b.body ++ rest).length < n := by
    rw [List.length_append]
    omega
  have hsome : b.length?.isSome = true := by rw [hn]; rfl
  unfold readBody
  rw [if_neg hlong, htake, hdrop]
  cases hd : Text.Utf8.decode b.body with
  | ok cs => exact ⟨_, .text cs hsome (Text.Utf8.decode_eq_ok_iff.mp hd), rfl⟩
  | error e =>
    refine ⟨_, .garbled hsome fun cs hcs => ?_, rfl⟩
    rw [Text.Utf8.decode_eq_ok_iff.mpr hcs] at hd
    exact absurd hd (by simp)

/-- An attempt to read a frame takes one block, to the byte. -/
theorem step_nextOf (b : Block) {max : Nat} (hmax : ∀ n, b.length? = some n → n ≤ max)
    (rest : List UInt8) :
    ∃ item, b.Yields item ∧ (nextOf max (b.bytes ++ rest)).step = item.step rest := by
  have hstep : (nextOf max (b.bytes ++ rest)).step =
      (afterHeaders max true ⟨true, b.length?⟩ (b.body ++ rest)).step := by
    have hne : (!b.headers.isEmpty) = true := by simp [b.nonempty]
    simp only [nextOf, next, Place.start, bytes, List.append_assoc]
    rw [step_readHeaders_lead, step_readHeaders_headers, foldl_after,
      step_readHeaders_separator _ _ _ _ (by simp [hne]), hne]
    simp [length?]
  rw [hstep]
  unfold afterHeaders
  cases hn : b.length? with
  | none =>
    have hbody : b.body = [] := by
      have := b.sized
      rw [show lastLength b.headers = none from hn] at this
      exact List.length_eq_zero_iff.mp this
    rw [hbody]
    exact ⟨_, .unframed hn, rfl⟩
  | some n =>
    simp only
    rw [if_neg (Nat.not_lt.mpr (hmax n hn)), if_pos (b.length_body hn ▸ b.fits)]
    exact b.step_readBody hn rest

end Block

theorem encode_line_append (cs ds : List Char) :
    encode (cs ++ '\n' :: ds) = lineBytes cs ++ encode ds := by
  rw [lineBytes, ← Text.Utf8.encode_append, List.append_assoc, List.singleton_append]

theorem cutLine_encode {cs : List Char} (hcs : '\n' ∉ cs) : cutLine (encode cs) = none := by
  have hdrop : (encode cs).dropWhile (· != lineFeed) = [] := by
    rw [List.dropWhile_eq_nil_iff]
    intro b hb
    rw [bne_iff_ne]
    rintro rfl
    exact hcs (lineFeed_mem_encode hb)
  unfold cutLine
  rw [hdrop]

/-- The end of the stream, after what may be a line without its line feed. -/
theorem step_readHeaders_unended (max : Nat) {cs : List Char}
    (h : ∀ c ∈ cs, Text.isBlank c = true) (hcs : '\n' ∉ cs) :
    (readHeaders max true {} (encode cs)).step = .finished := by
  have hcut := cutLine_encode hcs
  have hdec : Text.Utf8.decode (encode cs) = .ok cs := Text.Utf8.decode_eq_ok_iff.mpr rfl
  have hline : readLine {} cs = .goOn {} [] := by
    simp only [readLine, Text.trim_eq_nil_iff.mpr h]
    rfl
  rw [readHeaders.eq_def]
  split
  next =>
    rw [if_neg (by decide), hdec]
    split
    · rfl
    · simp only [hline]
      rfl
  next hc =>
    rw [hcut] at hc
    exact absurd hc (by simp)

/-- Blank lines alone are the end, whether or not the last has its line feed. -/
theorem step_nextOf_blank (max : Nat) (tail : List Char)
    (h : ∀ c ∈ tail, Text.isBlank c = true) : (nextOf max (encode tail)).step = .finished := by
  -- one line is passed over at a time, and the last may not be ended
  by_cases hm : '\n' ∈ tail
  · obtain ⟨cs, ds, ht, hcs⟩ := List.eq_append_cons_of_mem hm
    have hb : ∀ c ∈ cs, Text.isBlank c = true := fun c hc => h c (by simp [ht, hc])
    have hd : ∀ c ∈ ds, Text.isBlank c = true := fun c hc => h c (by simp [ht, hc])
    have hlead := step_readHeaders_lead max (encode ds) [⟨cs, hb, hcs⟩]
    rw [List.flatMap_cons, List.flatMap_nil, List.append_nil, ← encode_line_append, ← ht] at hlead
    exact hlead.trans (step_nextOf_blank max ds hd)
  · exact step_readHeaders_unended max h hm
termination_by tail.length
decreasing_by
  rw [ht, List.length_append, List.length_cons]
  omega

theorem isFatal_of_yields {b : Block} {e : LinkError} (h : b.Yields (.error e)) :
    e.isFatal = false := by
  cases h <;> rfl

theorem not_yields_ended {b : Block} : ¬ b.Yields .ended := nofun

/-- The blocks of a stream are read one by one, and the end is found after them. -/
theorem readAllWithin_blocks {max : Nat} (blocks : List Block)
    (hmax : ∀ b ∈ blocks, ∀ n, b.length? = some n → n ≤ max) {tail : List Char}
    (ht : ∀ c ∈ tail, Text.isBlank c = true) {rounds : Nat} (hr : blocks.length < rounds) :
    ∃ items, List.Forall₂ Block.Yields blocks items ∧
      (readAllWithin max rounds (blocks.flatMap Block.bytes ++ encode tail)).map (·.1) =
        items ++ [.ended] := by
  -- a round for each block, which leaves the bytes of the next ones, and one for the end
  induction blocks generalizing rounds with
  | nil =>
    obtain ⟨r, rfl⟩ : ∃ r, rounds = r + 1 := ⟨rounds - 1, by simp at hr; omega⟩
    refine ⟨[], .nil, ?_⟩
    rw [List.flatMap_nil, List.nil_append, readAllWithin]
    simp only [step_nextOf_blank max tail ht]
    rfl
  | cons b bs ih =>
    obtain ⟨r, rfl⟩ : ∃ r, rounds = r + 1 := ⟨rounds - 1, by omega⟩
    have hr' : bs.length < r := Nat.lt_of_succ_lt_succ hr
    obtain ⟨items, hitems, hrest⟩ := ih (fun b' hb' => hmax b' (List.mem_cons_of_mem _ hb')) hr'
    obtain ⟨item, hitem, hstep⟩ := b.step_nextOf (hmax b List.mem_cons_self)
      (bs.flatMap Block.bytes ++ encode tail)
    refine ⟨item :: items, .cons hitem hitems, ?_⟩
    rw [List.flatMap_cons, List.append_assoc, readAllWithin]
    simp only [hstep]
    cases item with
    | body text => exact congrArg _ hrest
    | error e =>
      simp only [Item.step, isFatal_of_yields hitem]
      exact congrArg _ hrest
    | ended => exact absurd hitem not_yields_ended

theorem Block.length_bytes_pos (b : Block) : 0 < b.bytes.length := by
  have h : 0 < (lineBytes b.separator.text).length := by
    rw [lineBytes, Text.Utf8.encode_append, List.length_append]
    exact Nat.lt_add_left _ (by decide)
  simp only [bytes, List.length_append]
  omega

/-- The value of the header that is written. -/
def lengthValue (n : Nat) : List Char := ' ' :: (Nat.toDigits 10 n ++ ['\r'])

theorem natural?_lengthValue (n : Nat) : Text.natural? (Text.trim (lengthValue n)) = some n := by
  have hlead : ∀ c ∈ [' '], Text.isBlank c = true := List.all_eq_true.mp (by decide)
  have hend : ∀ c ∈ ['\r'], Text.isBlank c = true := List.all_eq_true.mp (by decide)
  have hdigits : ∀ c ∈ Nat.toDigits 10 n, Text.isBlank c = false := fun c hc =>
    Text.isBlank_of_isDigit (Text.isDigit_of_mem_toDigits hc)
  rw [lengthValue, ← List.singleton_append, Text.trim_blank_append hlead,
    Text.trim_append_blank hend, Text.trim_eq_self hdigits, Text.natural?_toDigits]

theorem lineFeed_notMem_lengthValue (n : Nat) :
    '\n' ∉ "Content-Length".toList ++ lengthValue n := by
  intro hm
  have hd : '\n' ∈ Nat.toDigits 10 n := by simpa [lengthValue] using hm
  exact absurd (Text.isDigit_of_mem_toDigits hd) (by decide)

/-- The length of a body as the header that is written gives it. -/
def lengthLine (n : Nat) (h : n < lengthBound) : HeaderLine :=
  .length "Content-Length".toList (lengthValue n) n (by decide) (natural?_lengthValue n) h
    (by decide) (lineFeed_notMem_lengthValue n)

/-- A line that only a carriage return stands on. -/
def emptyLine : BlankLine where
  text := ['\r']
  blank := List.all_eq_true.mp (by decide)
  oneLine := by decide

theorem bufferBound_le : bufferBound ≤ lengthBound := by decide

/-- A frame that is written, as a block. -/
def Block.ofBody (body : String) (h : body.utf8ByteSize < bufferBound) : Block where
  headers := [lengthLine body.utf8ByteSize (h.trans_le bufferBound_le)]
  nonempty := List.cons_ne_nil _ _
  separator := emptyLine
  body := encode body.toList
  sized := Text.Utf8.length_encode body
  fits := (Text.Utf8.length_encode body).trans_lt h

theorem toList_render (body : String) : (render body).toList =
    ("Content-Length".toList ++ ':' :: lengthValue body.utf8ByteSize ++ ['\n']) ++
      ((['\r'] ++ ['\n']) ++ body.toList) := by
  have hname : "Content-Length: ".toList = "Content-Length".toList ++ [':', ' '] := by decide
  have hend : "\r\n\r\n".toList = ['\r', '\n', '\r', '\n'] := by decide
  have hdigits : (toString body.utf8ByteSize).toList = Nat.toDigits 10 body.utf8ByteSize := by
    rw [Nat.toString_eq_ofList_toDigits, String.toList_ofList]
  have hheader : (header body).toList = "Content-Length: ".toList ++
      ((toString body.utf8ByteSize).toList ++ "\r\n\r\n".toList) := by
    rw [header, String.toList_append, String.toList_append, List.append_assoc]
    rfl
  rw [render, String.toList_append, hheader, hname, hend, hdigits]
  simp [lengthValue]

theorem Block.bytes_ofBody (body : String) (h : body.utf8ByteSize < bufferBound) :
    (Block.ofBody body h).bytes = encode (render body).toList := by
  have hbytes : (Block.ofBody body h).bytes =
      lineBytes (lengthLine body.utf8ByteSize (h.trans_le bufferBound_le)).text ++
        (lineBytes ['\r'] ++ encode body.toList) := by
    simp [bytes, ofBody, emptyLine]
  rw [hbytes, toList_render, Text.Utf8.encode_append (_ ++ ['\n']),
    Text.Utf8.encode_append (['\r'] ++ ['\n'])]
  rfl

/-- Without a limit every frame is written, one after the other. -/
theorem writeFrames_of_unlimited (s : Sink) (hs : s.room = none) (bodies : List String) :
    s.writeFrames bodies =
      ({ s with chunks := s.chunks ++ bodies.flatMap fun b => [header b, b] }, .ok ()) := by
  induction bodies generalizing s with
  | nil => simp [Sink.writeFrames]
  | cons b bs ih =>
    have hw : s.writeFrame b =
        ({ s with chunks := s.chunks ++ [header b, b] }, .ok ()) := by
      simp [Sink.writeFrame, Sink.write, hs]
    have ih := ih { s with chunks := s.chunks ++ [header b, b] } hs
    rw [Sink.writeFrames, hw]
    simp only
    rw [ih]
    simp

theorem encode_writeFrames (bodies : List String) :
    encode (({} : Sink).writeFrames bodies).1.text.toList =
      bodies.flatMap fun b => encode (render b).toList := by
  rw [writeFrames_of_unlimited {} rfl]
  simp only [Sink.text, List.nil_append, String.toList_join]
  induction bodies with
  | nil => rfl
  | cons b bs ih =>
    rw [List.flatMap_cons, List.flatMap_append, Text.Utf8.encode_append, ih, List.flatMap_cons]
    simp [render, String.toList_append]

theorem Block.length?_ofBody (body : String) (h : body.utf8ByteSize < bufferBound) :
    (Block.ofBody body h).length? = some body.utf8ByteSize := rfl

theorem Block.yields_ofBody {body : String} {h : body.utf8ByteSize < bufferBound} {item : Item}
    (hy : (Block.ofBody body h).Yields item) : item = .body body := by
  cases hy with
  | text cs _ hb =>
    have hd : Text.Utf8.decode (encode body.toList) = .ok cs := Text.Utf8.decode_eq_ok_iff.mpr hb
    have hself : Text.Utf8.decode (encode body.toList) = .ok body.toList :=
      Text.Utf8.decode_eq_ok_iff.mpr rfl
    have hcs : body.toList = cs := Except.ok.inj (hself.symm.trans hd)
    rw [← hcs, String.ofList_toList]
  | garbled _ hb => exact absurd rfl (hb body.toList)
  | unframed hn => exact absurd ((Block.length?_ofBody body h).symm.trans hn) (by simp)

theorem readAll_of_blocks {max : Nat} (blocks : List Block)
    (hmax : ∀ b ∈ blocks, ∀ n, b.length? = some n → n ≤ max) {tail : List Char}
    (ht : ∀ c ∈ tail, Text.isBlank c = true) :
    ∃ items, List.Forall₂ Block.Yields blocks items ∧
      (readAll max (blocks.flatMap Block.bytes ++ encode tail)).map (·.1) = items ++ [.ended] := by
  have hlen : blocks.length ≤ (blocks.flatMap Block.bytes).length := by
    clear hmax
    -- no block is without bytes, so the rounds that the bytes allow are enough
    induction blocks with
    | nil => exact Nat.le_refl 0
    | cons b bs ih =>
      have hb := b.length_bytes_pos
      rw [List.flatMap_cons, List.length_append, List.length_cons]
      omega
  refine readAllWithin_blocks blocks hmax ht ?_
  rw [List.length_append]
  omega

/-- The blocks of a stream, however their headers and bodies look, are read one by one and to the
byte, and then the end is found. So what is written as frames is read back. -/
theorem readAll_blocks (max : Nat) :
    (∀ (blocks : List Block), (∀ b ∈ blocks, ∀ n, b.length? = some n → n ≤ max) →
      ∀ tail : List Char, (∀ c ∈ tail, Text.isBlank c = true) →
        ∃ items, List.Forall₂ Block.Yields blocks items ∧
          (readAll max (blocks.flatMap Block.bytes ++ encode tail)).map (·.1) =
            items ++ [.ended]) ∧
    (∀ bodies : List String, (∀ b ∈ bodies, b.utf8ByteSize ≤ max) →
      (∀ b ∈ bodies, b.utf8ByteSize < bufferBound) →
      (readAll max (encode (({} : Sink).writeFrames bodies).1.text.toList)).map (·.1) =
        bodies.map .body ++ [.ended]) := by
  refine ⟨fun blocks hmax tail ht => readAll_of_blocks blocks hmax ht, ?_⟩
  intro bodies hmax hsmall
  obtain ⟨bs, rfl⟩ : ∃ bs : List {b : String // b.utf8ByteSize < bufferBound},
      bodies = bs.map Subtype.val := ⟨bodies.attachWith _ hsmall, by simp⟩
  have hlimit : ∀ b ∈ bs.map fun b => Block.ofBody b.1 b.2, ∀ n, b.length? = some n → n ≤ max := by
    intro b hb n hn
    obtain ⟨body, hbody, rfl⟩ := List.mem_map.mp hb
    rw [Block.length?_ofBody] at hn
    cases hn
    exact hmax body.1 (List.mem_map_of_mem hbody)
  have hnone : ∀ c ∈ ([] : List Char), Text.isBlank c = true := by simp
  obtain ⟨items, hitems, hread⟩ := readAll_of_blocks _ hlimit hnone
  have heq : items = (bs.map Subtype.val).map .body := by
    rw [List.forall₂_map_left_iff] at hitems
    have hsame := hitems.imp fun b item hy => (Block.yields_ofBody hy).symm
    rw [← List.forall₂_map_left_iff, List.forall₂_eq_eq_eq] at hsame
    rw [← hsame, List.map_map]
    rfl
  rw [encode_writeFrames, List.flatMap_map, ← heq, ← hread]
  simp [List.flatMap_map, Block.bytes_ofBody, Text.Utf8.encode]

/-- A line without a colon, two lengths of which the last counts, a body that is no text; and bodies
that are empty or look like headers. -/
theorem readAll_blocks_garbled :
    let b : Block := {
      lead := [emptyLine]
      headers := [.malformed ['x'] ⟨'x', List.mem_cons_self, by decide⟩ (by decide) (by decide),
        .length "Content-Length".toList ['7'] 7 (by decide) (by decide) (by decide) (by decide)
          (by decide),
        .length "content-length ".toList ['+', '1', '\r'] 1 (by decide) (by decide) (by decide)
          (by decide) (by decide)]
      nonempty := List.cons_ne_nil _ _
      separator := emptyLine
      body := [0xFF]
      sized := rfl
      fits := by decide }
    let bodies := ["", "Content-Length: 3\r\n\r\n"]
    b.length? = some 1 ∧
      (readAll 32 (b.bytes ++ encode ['\n'])).map (·.1) = [.error .invalidUtf8, .ended] ∧
      (∀ s ∈ bodies, s.utf8ByteSize ≤ 32) ∧ (∀ s ∈ bodies, s.utf8ByteSize < bufferBound) ∧
      (readAll 32 (encode (({} : Sink).writeFrames bodies).1.text.toList)).map (·.1) =
        bodies.map .body ++ [.ended] := by
  intro b bodies
  obtain ⟨hread, hwrite⟩ := readAll_blocks 32
  have hlength : b.length? = some 1 := rfl
  have hlimit : ∀ x ∈ [b], ∀ n, x.length? = some n → n ≤ 32 := by
    intro x hx n hn
    rw [List.mem_singleton.mp hx, hlength] at hn
    cases hn
    decide
  obtain ⟨items, hitems, h⟩ := hread [b] hlimit ['\n'] blank_lineFeed
  have hsmall : ∀ s ∈ bodies, s.utf8ByteSize ≤ 32 := by decide
  have hfits : ∀ s ∈ bodies, s.utf8ByteSize < bufferBound := by decide
  refine ⟨hlength, ?_, hsmall, hfits, hwrite bodies hsmall hfits⟩
  have hgarbled : ∀ cs, b.body ≠ encode cs := by
    intro cs hcs
    have hd : Text.Utf8.decode [0xFF] = .ok cs := Text.Utf8.decode_eq_ok_iff.mpr hcs
    exact absurd hd (by simp [Text.Utf8.decode, Text.Utf8.decodeFrom, Text.Utf8.announced])
  cases hitems with
  | cons hy hnil =>
    cases hnil
    cases hy with
    | text cs _ hcs => exact absurd hcs (hgarbled cs)
    | garbled => simpa using h
    | unframed hn => exact absurd (hlength.symm.trans hn) (by simp)

end RpcPeer.Frame
