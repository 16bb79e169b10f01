import RpcPeer.Proofs.Frame.BrokenLength

/-! Blocks with a length that is within the limit and that no buffer holds. -/
namespace RpcPeer.Frame
open Text.Utf8 (encode)

/-- A blank line, which at the end of a stream may lack its line feed, and what stands behind it. -/
def StartsBlank (bytes : List UInt8) : Prop :=
  ∃ l : BlankLine, (∃ rest, bytes = lineBytes l.text ++ rest) ∨
    (l.text ≠ [] ∧ bytes = encode l.text)

/-- A length that the limit lets pass and that no buffer has. -/
def OverBuffer (max n : Nat) : Prop := bufferBound ≤ n ∧ n ≤ max

/-- Complete headers, blank lines before them and any bytes behind them; the length that they give
is over what a buffer holds. -/
def Unheld (max : Nat) (bytes : List UInt8) : Prop :=
  ∃ (lead : List BlankLine) (headers : List HeaderLine) (tail : List UInt8) (n : Nat),
    bytes = lead.flatMap (lineBytes ·.text) ++ (headers.flatMap (lineBytes ·.text) ++ tail) ∧
    StartsBlank tail ∧ lastLength headers = some n ∧ OverBuffer max n

section
variable {max n : Nat} {ended : Bool} {h : Headers} {bytes line rest : List UInt8} {cs : List Char}

theorem readLine_lineFeed (h : Headers) (cs : List Char) :
    readLine h (cs ++ ['\n']) = readLine h cs := by
  simp only [readLine, Text.trim_append_blank blank_lineFeed]

theorem readLine_done (hl : readLine h cs = .done) :
    h.started = true ∧ ∀ c ∈ cs, Text.isBlank c = true := by
  unfold readLine at hl
  split at hl
  next htrim =>
    split at hl
    next hs => exact ⟨hs, Text.trim_eq_nil_iff.mp htrim⟩
    next => cases hl
  next =>
    split at hl
    · cases hl
    · simp only at hl
      split at hl
      · cases hl
      · split at hl <;> cases hl

/-- A line is blank, or the reader takes it in as a header, or it breaks its block. -/
theorem line_cases (hcs : '\n' ∉ cs) : (∃ l : BlankLine, l.text = cs) ∨
    (∃ l : HeaderLine, l.text = cs) ∨ ∃ l : Line, l.text = cs ∧ l.Broken := by
  by_cases hblank : ∀ c ∈ cs, Text.isBlank c = true
  · exact .inl ⟨⟨cs, hblank, hcs⟩, rfl⟩
  · have hvisible : ∃ c ∈ cs, Text.isBlank c = false := by simpa using hblank
    let l : Line := ⟨cs, hvisible, hcs⟩
    by_cases hbroken : l.Broken
    · exact .inr (.inr ⟨l, rfl, hbroken⟩)
    · obtain ⟨header, htext, -⟩ := Line.exists_headerLine hbroken
      exact .inr (.inl ⟨header, htext⟩)

theorem lineFeed_mem_of_cutLine (hc : cutLine bytes = some (line, rest)) : lineFeed ∈ line := by
  unfold cutLine at hc
  split at hc
  · cases hc
  next c tail hdrop =>
    have hfirst : (c != lineFeed) = false := by
      have := List.head?_dropWhile_not (· != lineFeed) bytes
      rw [hdrop] at this
      simpa using this
    cases hc
    rw [bne_eq_false_iff_eq] at hfirst
    simp [hfirst]

/-- A line that is cut off and can be read is one line with its line feed. -/
theorem exists_line_of_cutLine (hc : cutLine bytes = some (line, rest))
    (hdec : Text.Utf8.decode line = .ok cs) :
    ∃ text, '\n' ∉ text ∧ cs = text ++ ['\n'] ∧ bytes = lineBytes text ++ rest := by
  have hline := Text.Utf8.decode_eq_ok_iff.mp hdec
  obtain ⟨-, hbytes⟩ := cutLine_eq_some hc
  have hmem : '\n' ∈ cs := lineFeed_mem_encode (hline ▸ lineFeed_mem_of_cutLine hc)
  obtain ⟨text, more, hcs, htext⟩ := List.eq_append_cons_of_mem hmem
  have hsplit : bytes = lineBytes text ++ (encode more ++ rest) := by
    rw [hbytes, hline, hcs, encode_line_append, List.append_assoc]
  have hcut := cutLine_lineBytes htext (encode more ++ rest)
  rw [← hsplit, hc] at hcut
  obtain ⟨rfl, -⟩ := Prod.mk.inj (Option.some.inj hcut)
  have hsame : encode cs = encode (text ++ ['\n']) := hline.symm
  refine ⟨text, htext, ?_, hbytes⟩
  have hself := Text.Utf8.decode_eq_ok_iff.mpr hsame
  have hother : Text.Utf8.decode (encode cs) = .ok cs := Text.Utf8.decode_eq_ok_iff.mpr rfl
  exact Except.ok.inj (hother.symm.trans hself)

theorem lineFeed_notMem_of_cutLine (hc : cutLine (encode cs) = none) : '\n' ∉ cs := by
  intro hmem
  obtain ⟨text, more, rfl, htext⟩ := List.eq_append_cons_of_mem hmem
  rw [encode_line_append, cutLine_lineBytes htext] at hc
  cases hc

theorem panicked_afterHeaders_iff : (afterHeaders max ended h rest).step = .panicked ↔
    ∃ n, h.length = some n ∧ OverBuffer max n := by
  have hbody (n : Nat) : (readBody ended n rest).step ≠ .panicked := by
    simp only [readBody]
    split
    · split <;> simp
    · split <;> simp
  unfold afterHeaders
  cases hn : h.length with
  | none => simp
  | some n =>
    simp only [Option.some.injEq, exists_eq_left', OverBuffer]
    split
    next hlarge => simp [Nat.not_le.mpr hlarge]
    next hmax =>
      split
      next hsmall => simp [hbody, Nat.not_le.mpr hsmall]
      next hlong => simp [Nat.le_of_not_lt hlong, Nat.le_of_not_lt hmax]

theorem not_panicked_atEnd : (atEnd h).step ≠ .panicked := by
  unfold atEnd
  split <;> simp

/-- What stands before an attempt that panics: only a reader that has seen no header passes over
blank lines. -/
theorem exists_lines_of_panicked (hp : (readHeaders max true h bytes).step = .panicked) :
    ∃ (lead : List BlankLine) (headers : List HeaderLine) (tail : List UInt8) (n : Nat),
      bytes = lead.flatMap (lineBytes ·.text) ++ (headers.flatMap (lineBytes ·.text) ++ tail) ∧
      StartsBlank tail ∧ (h.started = true → lead = []) ∧
      (lastLength headers).or h.length = some n ∧ OverBuffer max n := by
  fun_induction readHeaders max true h bytes with
  | case1 | case3 | case6 | case7 | case10 => cases hp
  | case2 | case5 => exact absurd hp not_panicked_atEnd
  | case4 h bytes hcut _ hne line hdec hl =>
    -- the blank line is the last one of the stream and has no line feed
    obtain ⟨hs, hblank⟩ := readLine_done hl
    obtain ⟨n, hn, hover⟩ := panicked_afterHeaders_iff.mp hp
    have hbytes := Text.Utf8.decode_eq_ok_iff.mp hdec
    have hnone := lineFeed_notMem_of_cutLine (hbytes ▸ hcut)
    have hnil : line ≠ [] := by
      rintro rfl
      exact hne (by simp [hbytes, encode])
    exact ⟨[], [], bytes, n, rfl, ⟨⟨line, hblank, hnone⟩, .inr ⟨hnil, hbytes⟩⟩, fun _ => rfl, hn,
      hover⟩
  | case8 h bytes line tail hcut cs hdec hl =>
    obtain ⟨n, hn, hover⟩ := panicked_afterHeaders_iff.mp hp
    obtain ⟨text, htext, rfl, rfl⟩ := exists_line_of_cutLine hcut hdec
    obtain ⟨hs, hblank⟩ := readLine_done (readLine_lineFeed h text ▸ hl)
    exact ⟨[], [], _, n, rfl, ⟨⟨text, hblank, htext⟩, .inl ⟨tail, rfl⟩⟩, fun _ => rfl, hn, hover⟩
  | case9 h bytes line rest hcut cs hdec h' log hl _ ih =>
    obtain ⟨lead, headers, tail, n, rfl, htail, hlead, hn, hover⟩ := ih hp
    obtain ⟨text, htext, rfl, rfl⟩ := exists_line_of_cutLine hcut hdec
    rcases line_cases htext with ⟨l, rfl⟩ | ⟨l, rfl⟩ | ⟨l, rfl, value, hvalue, hbroken⟩
    · rw [readLine_blank] at hl
      split at hl
      next => cases hl
      next hs =>
        cases hl
        exact ⟨l :: lead, headers, tail, n, by simp, htail, fun hs' => absurd hs' hs, hn, hover⟩
    · obtain ⟨log', hheader⟩ := readLine_header h l
      rw [hheader] at hl
      cases hl
      obtain rfl := hlead rfl
      refine ⟨[], l :: headers, tail, n, by simp, htail, fun _ => rfl, ?_, hover⟩
      rwa [lastLength_cons, Option.or_assoc]
    · rw [readLine_broken h hvalue hbroken] at hl
      cases hl

theorem step_readHeaders_startsBlank (hs : h.started = true) (hb : StartsBlank bytes) :
    ∃ rest, (readHeaders max true h bytes).step = (afterHeaders max true h rest).step := by
  obtain ⟨l, ⟨rest, rfl⟩ | ⟨hne, rfl⟩⟩ := hb
  · exact ⟨rest, step_readHeaders_separator max h rest l hs⟩
  · have hcut := cutLine_encode l.oneLine
    have hdec : Text.Utf8.decode (encode l.text) = .ok l.text := Text.Utf8.decode_eq_ok_iff.mpr rfl
    have hline : readLine h l.text = .done := by
      rw [← readLine_lineFeed, readLine_blank, if_pos hs]
    have hbytes : (encode l.text).isEmpty = false := by
      cases hbytes : (encode l.text) with
      | nil =>
        rw [hbytes] at hdec
        exact absurd (Except.ok.inj hdec).symm hne
      | cons => rfl
    refine ⟨[], ?_⟩
    rw [readHeaders.eq_def]
    split
    next => simp [hbytes, hdec, hline]
    next hc => cases hcut.symm.trans hc

/-- An attempt panics exactly where it stands before a block whose length no buffer holds. -/
theorem panicked_iff : (nextOf max bytes).step = .panicked ↔ Unheld max bytes := by
  constructor
  · intro hp
    obtain ⟨lead, headers, tail, n, hbytes, htail, -, hn, hover⟩ := exists_lines_of_panicked hp
    exact ⟨lead, headers, tail, n, hbytes, htail, by simpa using hn, hover⟩
  · rintro ⟨lead, headers, tail, n, rfl, htail, hn, hover⟩
    have hne : (!headers.isEmpty) = true := by
      cases headers with
      | nil => cases hn
      | cons => rfl
    let h : Headers := ⟨true, lastLength headers⟩
    obtain ⟨rest, hrest⟩ : ∃ rest, (readHeaders max true h tail).step =
        (afterHeaders max true h rest).step := step_readHeaders_startsBlank rfl htail
    simp only [nextOf, next, Place.start]
    rw [step_readHeaders_lead, step_readHeaders_headers, foldl_after, hne]
    simp only [Bool.or_true, Option.or_none]
    exact hrest.trans (panicked_afterHeaders_iff.mpr ⟨n, hn, hover⟩)

theorem bufferBound_le_of_meets (hm : Meets max (Unheld max) bytes) : bufferBound ≤ max := by
  obtain ⟨rest, -, -, -, -, n, -, -, -, hlong, hmax⟩ := hm
  exact hlong.trans hmax

end
end RpcPeer.Frame
