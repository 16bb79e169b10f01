import RpcPeer.Frame.Reader
import RpcPeer.Proofs.Text.Blank
import RpcPeer.Proofs.Text.Utf8

/-! The lines of a header block and what the reader makes of each. -/
namespace RpcPeer.Frame
open Text.Utf8 (encode)

/-- The bytes of a line. -/
def lineBytes (text : List Char) : List UInt8 := encode (text ++ ['\n'])

/-- A line that shows nothing. -/
structure BlankLine where
  text : List Char
  blank : ∀ c ∈ text, Text.isBlank c = true
  oneLine : '\n' ∉ text

/-- A line that shows something. -/
inductive HeaderLine
  /-- A line without a colon, which is passed over. -/
  | malformed (text : List Char) (visible : ∃ c ∈ text, Text.isBlank c = false)
      (colonless : ':' ∉ text) (oneLine : '\n' ∉ text)
  /-- A header other than the length. -/
  | other (name value : List Char) (unlike : Text.lower (Text.trim name) ≠ contentLength)
      (colonless : ':' ∉ name) (oneLine : '\n' ∉ name ++ value)
  /-- The length of the body. -/
  | length (name value : List Char) (n : Nat)
      (like : Text.lower (Text.trim name) = contentLength)
      (numeral : Text.natural? (Text.trim value) = some n) (small : n < lengthBound)
      (colonless : ':' ∉ name) (oneLine : '\n' ∉ name ++ value)

namespace HeaderLine

def text : HeaderLine → List Char
  | malformed text .. => text
  | other name value .. => name ++ ':' :: value
  | length name value .. => name ++ ':' :: value

def length? : HeaderLine → Option Nat
  | length _ _ n .. => some n
  | _ => none

/-- What a block has said after this line. -/
def after (l : HeaderLine) (h : Headers) : Headers := ⟨true, l.length?.or h.length⟩

theorem oneLine (l : HeaderLine) : '\n' ∉ l.text := by
  cases l with
  | malformed _ _ _ h => exact h
  | other name value _ _ h | length name value _ _ _ _ _ h =>
    simp only [text, List.mem_append, List.mem_cons] at h ⊢
    rintro (hn | hc | hv)
    · exact h (.inl hn)
    · exact absurd hc (by decide)
    · exact h (.inr hv)

end HeaderLine

theorem lineFeed_mem_encode {cs : List Char} (h : lineFeed ∈ encode cs) : '\n' ∈ cs := by
  obtain ⟨c, hc, hb⟩ := List.mem_flatMap.mp h
  have hn : lineFeed.toNat = c.toNat :=
    Text.Utf8.toNat_of_mem_encodeChar hb (by decide)
  have he : '\n' = c := Char.toNat_inj.mp hn
  exact he ▸ hc

theorem cutLine_lineBytes {cs : List Char} (h : '\n' ∉ cs) (rest : List UInt8) :
    cutLine (lineBytes cs ++ rest) = some (lineBytes cs, rest) := by
  have hall : ∀ b ∈ encode cs, (b != lineFeed) = true := by
    intro b hb
    rw [bne_iff_ne]
    rintro rfl
    exact h (lineFeed_mem_encode hb)
  have hline : lineBytes cs = encode cs ++ [lineFeed] := Text.Utf8.encode_append cs ['\n']
  have hdrop : (lineBytes cs ++ rest).dropWhile (· != lineFeed) = lineFeed :: rest := by
    rw [hline, List.append_assoc, List.dropWhile_append_of_pos hall]
    rfl
  have htake : (lineBytes cs ++ rest).takeWhile (· != lineFeed) = encode cs := by
    rw [hline, List.append_assoc, List.takeWhile_append_of_pos hall]
    simp [lineFeed]
  unfold cutLine
  rw [hdrop]
  simp only [htake]
  rw [hline]

theorem readHeaders_lineBytes {cs : List Char} (hcs : '\n' ∉ cs) (max : Nat) (ended : Bool)
    (h : Headers) (rest : List UInt8) : readHeaders max ended h (lineBytes cs ++ rest) =
      match readLine h (cs ++ ['\n']) with
      | .done => afterHeaders max ended h rest
      | .goOn h log => (readHeaders max ended h rest).after log
      | .failed e => ⟨[], .failed e rest⟩ := by
  have hcut := cutLine_lineBytes hcs rest
  have hdec : Text.Utf8.decode (lineBytes cs) = .ok (cs ++ ['\n']) :=
    Text.Utf8.decode_eq_ok_iff.mpr rfl
  rw [readHeaders.eq_def]
  split
  next hc => rw [hcut] at hc; exact absurd hc (by simp)
  next line rest' hc =>
    rw [hcut] at hc
    cases hc
    cases hl : readLine h (cs ++ ['\n']) with
    | done => simp only [hdec, hl]
    | goOn h log => simp only [hdec, hl]
    | failed e => simp only [hdec, hl]

theorem blank_lineFeed : ∀ c ∈ ['\n'], Text.isBlank c = true := List.all_eq_true.mp (by decide)

theorem readLine_blank (h : Headers) (l : BlankLine) :
    readLine h (l.text ++ ['\n']) = if h.started then .done else .goOn h [] := by
  have ht : Text.trim (l.text ++ ['\n']) = [] := by
    rw [Text.trim_append_blank blank_lineFeed]
    exact Text.trim_eq_nil_iff.mpr l.blank
  simp only [readLine, ht]

theorem readLine_field {name value : List Char} (hn : ':' ∉ name) (h : Headers) :
    readLine h (name ++ ':' :: value ++ ['\n']) =
      if Text.lower (Text.trim name) != contentLength then .goOn { h with started := true } []
      else
        match (Text.natural? (Text.trim value)).filter (· < lengthBound) with
        | some n => .goOn { started := true, length := some n } []
        | none =>
          .failed (.invalidHeader ("Invalid Content-Length: " ++
            String.ofList (Text.trim value))) := by
  have hvis : Text.isBlank ':' = false := by decide
  have ht : Text.trim (name ++ ':' :: value ++ ['\n']) =
      name.dropWhile Text.isBlank ++ ':' :: Text.trimEnd value := by
    rw [Text.trim_append_blank blank_lineFeed, Text.trim_append_visible hvis]
  have hall : ∀ c ∈ name.dropWhile Text.isBlank, (c != ':') = true := by
    intro c hc
    rw [bne_iff_ne]
    rintro rfl
    exact hn ((List.dropWhile_suffix _).subset hc)
  have hdrop : (name.dropWhile Text.isBlank ++ ':' :: Text.trimEnd value).dropWhile (· != ':') =
      ':' :: Text.trimEnd value := by
    rw [List.dropWhile_append_of_pos hall]
    rfl
  have htake : (name.dropWhile Text.isBlank ++ ':' :: Text.trimEnd value).takeWhile (· != ':') =
      name.dropWhile Text.isBlank := by
    rw [List.takeWhile_append_of_pos hall]
    simp
  unfold readLine
  split
  next he => exact absurd (ht.symm.trans he) (by simp)
  next =>
    cases hvalue : (Text.natural? (Text.trim value)).filter (· < lengthBound) with
    | some n =>
      simp only [ht, hdrop, htake, Text.trim_dropWhile, Text.trim_trimEnd, hvalue]
    | none =>
      simp only [ht, hdrop, htake, Text.trim_dropWhile, Text.trim_trimEnd, hvalue]

theorem readLine_malformed {text : List Char} (hv : ∃ c ∈ text, Text.isBlank c = false)
    (hc : ':' ∉ text) (h : Headers) : ∃ log, readLine h (text ++ ['\n']) =
      .goOn { h with started := true } log := by
  have ht : Text.trim (text ++ ['\n']) = Text.trim text := Text.trim_append_blank blank_lineFeed
  have hdrop : (Text.trim text).dropWhile (· != ':') = [] := by
    rw [List.dropWhile_eq_nil_iff]
    intro c hm
    rw [bne_iff_ne]
    rintro rfl
    exact hc (Text.mem_of_mem_trim hm)
  unfold readLine
  split
  next he =>
    obtain ⟨c, hm, hb⟩ := hv
    have := Text.trim_eq_nil_iff.mp (ht.symm.trans he) c hm
    exact absurd (hb.symm.trans this) (by decide)
  next =>
    rw [ht, hdrop]
    exact ⟨_, rfl⟩

/-- No header line ends the block or breaks it. -/
theorem readLine_header (h : Headers) (l : HeaderLine) :
    ∃ log, readLine h (l.text ++ ['\n']) = .goOn (l.after h) log := by
  cases l with
  | malformed text hv hc _ => exact readLine_malformed hv hc h
  | other name value hu hc _ =>
    have hne : (Text.lower (Text.trim name) != contentLength) = true := bne_iff_ne.mpr hu
    refine ⟨[], (readLine_field hc h).trans ?_⟩
    rw [if_pos hne]
    rfl
  | length name value n hl hn hs hc _ =>
    have heq : ¬ (Text.lower (Text.trim name) != contentLength) = true := by simp [hl]
    refine ⟨[], (readLine_field hc h).trans ?_⟩
    rw [if_neg heq, hn]
    simp only [Option.filter, hs, decide_true]
    rfl

end RpcPeer.Frame
