import Mathlib.Logic.Relation
import RpcPeer.Proofs.Frame.Stream

/-! Attempts to read a frame from any bytes, one after the other and piece by piece. -/
namespace RpcPeer.Frame
open Text.Utf8 (encode)

/-- The bytes from which the next attempt reads, if there is one. -/
def Step.next? : Step → Option (List UInt8)
  | .frame _ rest => some rest
  | .failed e rest => if e.isFatal then none else some rest
  | .finished | .panicked | .waiting .. => none

/-- Lines that show nothing, and after them nothing else. -/
def OnlyBlank (bytes : List UInt8) : Prop :=
  ∃ cs, bytes = encode cs ∧ ∀ c ∈ cs, Text.isBlank c = true

/-- One of the attempts that follow each other on a stream reads from these bytes. -/
def Attempted (max : Nat) : List UInt8 → List UInt8 → Prop :=
  Relation.ReflTransGen fun xs ys => (nextOf max xs).step.next? = some ys

/-- One of the attempts reads from bytes of this kind. -/
def Meets (max : Nat) (P : List UInt8 → Prop) (bytes : List UInt8) : Prop :=
  ∃ rest, Attempted max bytes rest ∧ P rest

/-- What becomes of an attempt where more bytes follow. -/
def Attempt.followedBy (max : Nat) (ended : Bool) (more : List UInt8) (a : Attempt) : Attempt :=
  match a.step with
  | .frame text rest => ⟨a.log, .frame text (rest ++ more)⟩
  | .failed e rest => ⟨a.log, .failed e (rest ++ more)⟩
  | .waiting place unread => (next max ended place (unread ++ more)).after a.log
  | .finished | .panicked => a

/-- What an attempt yields to the reader's user. -/
def Attempt.item? (a : Attempt) : Option (Item × List LogEntry) :=
  match a.step with
  | .frame text _ => some (.body text, a.log)
  | .failed e _ => some (.error e, a.log)
  | .finished => some (.ended, a.log)
  | .panicked | .waiting .. => none

/-- An attempt and those that follow it. -/
def Attempt.followers (following : List UInt8 → List Attempt) (a : Attempt) : List Attempt :=
  a :: a.step.next?.elim [] following

def attemptsWithin (max : Nat) : Nat → List UInt8 → List Attempt
  | 0, _ => []
  | rounds + 1, bytes => (nextOf max bytes).followers (attemptsWithin max rounds)

/-- All attempts on a stream that has ended, each on what the one before has left. -/
def attempts (max : Nat) (bytes : List UInt8) : List Attempt :=
  attemptsWithin max (bytes.length + 1) bytes

/-- The attempts of a reader that stands at `place` before the last bytes of a stream. -/
def attemptsOn (max : Nat) (place : Place) (bytes : List UInt8) : List Attempt :=
  (next max true place bytes).followers (attempts max)

section
variable {max n : Nat} {ended : Bool} {h : Headers} {place : Place} {a : Attempt}
  {bytes line rest xs ys : List UInt8}

theorem cutLine_eq_some (hc : cutLine bytes = some (line, rest)) :
    line ≠ [] ∧ bytes = line ++ rest := by
  have hb := List.takeWhile_append_dropWhile (p := (· != lineFeed)) (l := bytes)
  unfold cutLine at hc
  split at hc
  · cases hc
  · rename_i c tail hdrop
    cases hc
    rw [hdrop] at hb
    exact ⟨by simp, by simpa using hb.symm⟩

theorem cutLine_append (hc : cutLine xs = some (line, rest)) (ys : List UInt8) :
    cutLine (xs ++ ys) = some (line, rest ++ ys) := by
  unfold cutLine at hc ⊢
  split at hc
  · cases hc
  · rename_i c tail hdrop
    cases hc
    have hne : (xs.dropWhile (· != lineFeed)).isEmpty = false := by simp [hdrop]
    have hfull : (xs.takeWhile (· != lineFeed)).length ≠ xs.length := by
      intro hlen
      have hsplit := List.takeWhile_append_dropWhile (p := (· != lineFeed)) (l := xs)
      have hsum := congrArg List.length hsplit
      rw [List.length_append, hlen, hdrop, List.length_cons] at hsum
      omega
    rw [List.dropWhile_append, hne, List.takeWhile_append, if_neg hfull, hdrop]
    rfl

theorem readHeaders_of_cutLine (hc : cutLine bytes = some (line, rest)) :
    readHeaders max ended h bytes =
      match Text.Utf8.decode line with
      | .error e => ⟨[], .failed (.io e.message) rest⟩
      | .ok line =>
        match readLine h line with
        | .done => afterHeaders max ended h rest
        | .goOn h log => (readHeaders max ended h rest).after log
        | .failed e => ⟨[], .failed e rest⟩ := by
  rw [readHeaders.eq_def]
  split
  next hn => rw [hc] at hn; cases hn
  next hs =>
    rw [hc] at hs
    cases hs
    rfl

@[simp] theorem step_after (log : List LogEntry) (a : Attempt) : (a.after log).step = a.step := rfl

theorem suffix_of_next?_readBody (hn : (readBody ended n bytes).step.next? = some rest) :
    rest <:+ bytes := by
  unfold readBody at hn
  simp only at hn
  split at hn
  · split at hn <;> cases hn
  · split at hn <;> cases hn <;> exact List.drop_suffix n bytes

theorem suffix_of_next?_afterHeaders
    (hn : (afterHeaders max ended h bytes).step.next? = some rest) : rest <:+ bytes := by
  unfold afterHeaders at hn
  split at hn
  · cases hn
    exact List.suffix_refl _
  · split at hn
    · cases hn
    · split at hn
      · exact suffix_of_next?_readBody hn
      · cases hn

theorem next?_failed {e : LinkError} (hn : (Step.failed e bytes).next? = some rest) :
    rest = bytes := by
  simp only [Step.next?] at hn
  split at hn <;> cases hn
  rfl

theorem next?_atEnd : (atEnd h).step.next? = none := by
  unfold atEnd
  split <;> rfl

/-- A body that has no bytes is not waited for. -/
def Place.Sound : Place → Prop
  | .headers _ => True
  | .body n => 0 < n

theorem Place.sound_start : Place.start.Sound := trivial

/-- An attempt that another one follows has used up bytes. -/
theorem progress (hp : place.Sound) (hn : (next max ended place bytes).step.next? = some rest) :
    rest <:+ bytes ∧ rest.length < bytes.length := by
  cases place with
  | body n =>
    refine ⟨suffix_of_next?_readBody hn, ?_⟩
    have hpos : 0 < n := hp
    simp only [next, readBody] at hn
    split at hn
    · split at hn <;> cases hn
    · split at hn <;> cases hn <;> simp only [List.length_drop] <;> omega
  | headers h =>
    clear hp
    simp only [next] at hn
    fun_induction readHeaders max ended h bytes with
    | case1 | case3 | case7 => cases hn
    | case2 | case5 => exact absurd hn (by simp [next?_atEnd])
    | case4 h bytes _ _ hne =>
      -- without a line feed the last line is all that is left
      have hnil := suffix_of_next?_afterHeaders hn
      rw [List.suffix_nil] at hnil
      exact hnil ▸ ⟨List.nil_suffix, List.length_pos_iff.mpr (by simpa using hne)⟩
    | case6 h bytes _ _ hne _ _ e =>
      have hnil : rest = [] := next?_failed hn
      exact hnil ▸ ⟨List.nil_suffix, List.length_pos_iff.mpr (by simpa using hne)⟩
    | case8 h bytes line tail hcut =>
      obtain ⟨-, rfl⟩ := cutLine_eq_some hcut
      have hs := suffix_of_next?_afterHeaders hn
      exact ⟨hs.trans (List.suffix_append _ _), hs.length_le.trans_lt (cutLine_length hcut)⟩
    | case9 h bytes line tail hcut _ _ _ _ _ hlt ih =>
      obtain ⟨hs, hl⟩ := ih hn
      obtain ⟨-, rfl⟩ := cutLine_eq_some hcut
      exact ⟨hs.trans (List.suffix_append _ _), hl.trans hlt⟩
    | case10 h bytes line tail hcut =>
      obtain ⟨-, rfl⟩ := cutLine_eq_some hcut
      rw [next?_failed hn]
      exact ⟨List.suffix_append _ _, cutLine_length hcut⟩

theorem sound_of_waiting_readBody {p : Place} {unread : List UInt8}
    (hw : (readBody ended n bytes).step = .waiting p unread) : p.Sound := by
  unfold readBody at hw
  simp only at hw
  split at hw
  next hlt =>
    split at hw <;> cases hw
    exact Nat.lt_of_le_of_lt (Nat.zero_le _) hlt
  next => split at hw <;> cases hw

theorem sound_of_waiting_afterHeaders {p : Place} {unread : List UInt8}
    (hw : (afterHeaders max ended h bytes).step = .waiting p unread) : p.Sound := by
  unfold afterHeaders at hw
  split at hw
  · cases hw
  · split at hw
    · cases hw
    · split at hw
      · exact sound_of_waiting_readBody hw
      · cases hw

theorem not_waiting_atEnd {p : Place} {unread : List UInt8} :
    (atEnd h).step ≠ .waiting p unread := by
  unfold atEnd
  split <;> simp

theorem sound_of_waiting {p : Place} {unread : List UInt8}
    (hw : (next max ended place bytes).step = .waiting p unread) : p.Sound := by
  cases place with
  | body n => exact sound_of_waiting_readBody hw
  | headers h =>
    simp only [next] at hw
    fun_induction readHeaders max ended h bytes with
    | case1 =>
      cases hw
      trivial
    | case2 | case5 => exact absurd hw not_waiting_atEnd
    | case4 | case8 => exact sound_of_waiting_afterHeaders hw
    | case9 _ _ _ _ _ _ _ _ _ _ _ ih => exact ih hw
    | case3 | case6 | case7 | case10 => cases hw

theorem not_waiting_readBody {p : Place} {unread : List UInt8} :
    (readBody true n bytes).step ≠ .waiting p unread := by
  unfold readBody
  simp only
  split
  · simp
  · split <;> simp

theorem not_waiting_afterHeaders {p : Place} {unread : List UInt8} :
    (afterHeaders max true h bytes).step ≠ .waiting p unread := by
  unfold afterHeaders
  split
  · simp
  · split
    · simp
    · split
      · exact not_waiting_readBody
      · simp

/-- Where the stream has ended nothing is waited for. -/
theorem not_waiting {p : Place} {unread : List UInt8} :
    (next max true place bytes).step ≠ .waiting p unread := by
  cases place with
  | body n => exact not_waiting_readBody
  | headers h =>
    simp only [next]
    fun_induction readHeaders max true h bytes with
    | case1 _ _ _ hended => exact absurd hended (by decide)
    | case2 | case5 => exact not_waiting_atEnd
    | case4 | case8 => exact not_waiting_afterHeaders
    | case9 _ _ _ _ _ _ _ _ _ _ _ ih => exact ih
    | case3 | case6 | case7 | case10 => simp

theorem readLine_goOn {line : List Char} {h' : Headers} {log : List LogEntry}
    (hl : readLine h line = .goOn h' log) (hs : h'.started = false) :
    h' = h ∧ ∀ c ∈ line, Text.isBlank c = true := by
  unfold readLine at hl
  split at hl
  next htrim =>
    split at hl <;> cases hl
    exact ⟨rfl, Text.trim_eq_nil_iff.mp htrim⟩
  next =>
    -- a line that shows something is a header, even one that is passed over
    have hstarted : h'.started = true := by
      split at hl
      · cases hl
        rfl
      · simp only at hl
        split at hl
        · cases hl
          rfl
        · split at hl <;> cases hl
          rfl
    exact absurd (hs.symm.trans hstarted) (by decide)

theorem finished_atEnd (hf : (atEnd h).step = .finished) : h.started = false := by
  unfold atEnd at hf
  split at hf
  · cases hf
  · exact Bool.eq_false_iff.mpr ‹_›

theorem not_finished_readBody : (readBody ended n bytes).step ≠ .finished := by
  unfold readBody
  simp only
  split
  · split <;> simp
  · split <;> simp

theorem not_finished_afterHeaders : (afterHeaders max ended h bytes).step ≠ .finished := by
  unfold afterHeaders
  split
  · simp
  · split
    · simp
    · split
      · exact not_finished_readBody
      · simp

theorem onlyBlank_of_finished (hf : (readHeaders max true h bytes).step = .finished) :
    h.started = false ∧ OnlyBlank bytes := by
  fun_induction readHeaders max true h bytes with
  | case1 | case3 | case6 | case7 | case10 => cases hf
  | case4 | case8 => exact absurd hf not_finished_afterHeaders
  | case2 h bytes _ _ hnil =>
    exact ⟨finished_atEnd hf, [], List.isEmpty_iff.mp hnil, nofun⟩
  | case5 h bytes _ _ _ line hdec h' log hl =>
    obtain ⟨rfl, hblank⟩ := readLine_goOn hl (finished_atEnd hf)
    exact ⟨finished_atEnd hf, line, Text.Utf8.decode_eq_ok_iff.mp hdec, hblank⟩
  | case9 h bytes lineBytes rest hcut line hdec h' log hl _ ih =>
    obtain ⟨hs, cs, rfl, hcs⟩ := ih hf
    obtain ⟨rfl, hblank⟩ := readLine_goOn hl hs
    obtain ⟨-, rfl⟩ := cutLine_eq_some hcut
    refine ⟨hs, line ++ cs, ?_, ?_⟩
    · rw [Text.Utf8.encode_append, ← Text.Utf8.decode_eq_ok_iff.mp hdec]
    · intro c hc
      rcases List.mem_append.mp hc with hc | hc
      · exact hblank c hc
      · exact hcs c hc

/-- The end of a stream is found exactly where only blank lines are left. -/
theorem finished_iff : (nextOf max bytes).step = .finished ↔ OnlyBlank bytes := by
  refine ⟨fun hf => (onlyBlank_of_finished hf).2, ?_⟩
  rintro ⟨cs, rfl, hcs⟩
  exact step_nextOf_blank max cs hcs

/-- What no attempt goes on from is met where it is met behind the first attempt. -/
theorem meets_iff_of_next? {P : List UInt8 → Prop}
    (hlast : ∀ xs, P xs → (nextOf max xs).step.next? = none)
    (hn : (nextOf max bytes).step.next? = some rest) : Meets max P bytes ↔ Meets max P rest := by
  constructor
  · rintro ⟨last, hwalk, hp⟩
    rcases Relation.ReflTransGen.cases_head hwalk with rfl | ⟨mid, hmid, hwalk⟩
    · cases hn.symm.trans (hlast _ hp)
    · cases hn.symm.trans hmid
      exact ⟨last, hwalk, hp⟩
  · rintro ⟨last, hwalk, hp⟩
    exact ⟨last, .head hn hwalk, hp⟩

theorem meets_iff_of_last {P : List UInt8 → Prop} (hn : (nextOf max bytes).step.next? = none) :
    Meets max P bytes ↔ P bytes := by
  refine ⟨?_, fun hp => ⟨bytes, .refl, hp⟩⟩
  rintro ⟨last, hwalk, hp⟩
  rcases Relation.ReflTransGen.cases_head hwalk with rfl | ⟨mid, hmid, -⟩
  · exact hp
  · cases hn.symm.trans hmid

@[simp] theorem after_nil (a : Attempt) : a.after [] = a := rfl

theorem after_after (log log' : List LogEntry) (a : Attempt) :
    (a.after log').after log = a.after (log ++ log') := by
  simp [Attempt.after]

theorem followedBy_after (log : List LogEntry) (a : Attempt) (hf : a.step ≠ .finished) :
    (a.after log).followedBy max ended ys = (a.followedBy max ended ys).after log := by
  obtain ⟨l, step⟩ := a
  cases step with
  | frame | failed => rfl
  | waiting place unread => exact (after_after log l _).symm
  | finished => exact absurd rfl hf
  | panicked => rfl

theorem readBody_append (n : Nat) (xs ys : List UInt8) :
    readBody ended n (xs ++ ys) = (readBody false n xs).followedBy max ended ys := by
  by_cases hlen : xs.length < n
  · have hwait : readBody false n xs = ⟨[], .waiting (.body n) xs⟩ := by
      simp only [readBody, if_pos hlen]
      rfl
    rw [hwait]
    rfl
  · have hle : n ≤ xs.length := Nat.le_of_not_lt hlen
    have hlong : ¬ (xs ++ ys).length < n := by
      rw [List.length_append]
      omega
    simp only [readBody, if_neg hlen, if_neg hlong, List.take_append_of_le_length hle,
      List.drop_append_of_le_length hle]
    cases Text.Utf8.decode (xs.take n) <;> rfl

theorem afterHeaders_append (h : Headers) (xs ys : List UInt8) :
    afterHeaders max ended h (xs ++ ys) =
      (afterHeaders max false h xs).followedBy max ended ys := by
  unfold afterHeaders
  cases h.length with
  | none => rfl
  | some n =>
    simp only
    split
    · rfl
    · split
      · exact readBody_append n xs ys
      · rfl

theorem not_finished : (next max false place xs).step ≠ .finished := by
  intro hf
  cases place with
  | body n => exact not_finished_readBody hf
  | headers h =>
    simp only [next] at hf
    fun_induction readHeaders max false h xs with
    | case1 | case3 | case6 | case7 | case10 => cases hf
    | case2 | case5 => contradiction
    | case4 | case8 => exact not_finished_afterHeaders hf
    | case9 _ _ _ _ _ _ _ _ _ _ _ ih => exact ih hf

/-- Bytes that arrive later are read as if they had been there before. -/
theorem next_append (max : Nat) (ended : Bool) (place : Place) (xs ys : List UInt8) :
    next max ended place (xs ++ ys) = (next max false place xs).followedBy max ended ys := by
  cases place with
  | body n => exact readBody_append n xs ys
  | headers h =>
    have hfin : (next max false (.headers h) xs).step ≠ .finished := not_finished
    simp only [next] at hfin ⊢
    fun_induction readHeaders max false h xs with
    | case1 => rfl
    | case2 | case3 | case4 | case5 | case6 => contradiction
    | case7 h xs line rest hcut e hdec =>
      simp only [readHeaders_of_cutLine (cutLine_append hcut ys), hdec]
      rfl
    | case8 h xs line rest hcut _ hdec hl =>
      simp only [readHeaders_of_cutLine (cutLine_append hcut ys), hdec, hl]
      exact afterHeaders_append h rest ys
    | case9 h xs line rest hcut _ hdec h' log hl _ ih =>
      simp only [readHeaders_of_cutLine (cutLine_append hcut ys), hdec, hl]
      rw [ih hfin]
      exact (followedBy_after log (readHeaders max false h' rest) hfin).symm
    | case10 h xs line rest hcut _ hdec e hl =>
      simp only [readHeaders_of_cutLine (cutLine_append hcut ys), hdec, hl]
      rfl

theorem followers_congr {f g : List UInt8 → List Attempt}
    (h : ∀ rest, a.step.next? = some rest → f rest = g rest) : a.followers f = a.followers g := by
  unfold Attempt.followers
  cases hn : a.step.next? with
  | none => rfl
  | some rest => exact congrArg (a :: ·) (h rest hn)

/-- More rounds than there are bytes are always enough. -/
theorem attemptsWithin_eq {rounds rounds' : Nat} (hr : bytes.length < rounds)
    (hr' : bytes.length < rounds') :
    attemptsWithin max rounds bytes = attemptsWithin max rounds' bytes := by
  induction rounds generalizing rounds' bytes with
  | zero => exact absurd hr (Nat.not_lt_zero _)
  | succ rounds ih =>
    obtain ⟨rounds', rfl⟩ : ∃ k, rounds' = k + 1 := ⟨rounds' - 1, by omega⟩
    refine followers_congr fun rest hn => ?_
    have hlt := (progress Place.sound_start hn).2
    exact ih (by omega) (by omega)

theorem attempts_eq (max : Nat) (bytes : List UInt8) :
    attempts max bytes = attemptsOn max .start bytes :=
  followers_congr fun _ hn =>
    attemptsWithin_eq (progress Place.sound_start hn).2 (Nat.lt_succ_self _)

theorem attempts_of_next? (hn : (nextOf max bytes).step.next? = some rest) :
    attempts max bytes = nextOf max bytes :: attempts max rest := by
  rw [attempts_eq, attemptsOn, ← nextOf, Attempt.followers, hn]
  rfl

theorem attempts_of_last (hn : (nextOf max bytes).step.next? = none) :
    attempts max bytes = [nextOf max bytes] := by
  rw [attempts_eq, attemptsOn, ← nextOf, Attempt.followers, hn]
  rfl

theorem readAllWithin_eq (max rounds : Nat) (bytes : List UInt8) :
    readAllWithin max rounds bytes =
      (attemptsWithin max rounds bytes).filterMap Attempt.item? := by
  induction rounds generalizing bytes with
  | zero => rfl
  | succ rounds ih =>
    rw [readAllWithin, attemptsWithin]
    rcases nextOf max bytes with ⟨log, step⟩
    cases step with
    | frame text rest => simp [Attempt.followers, Attempt.item?, Step.next?, ih]
    | failed e rest =>
      cases hfatal : e.isFatal with
      | true => simp [Attempt.followers, Attempt.item?, Step.next?, hfatal]
      | false => simp [Attempt.followers, Attempt.item?, Step.next?, hfatal, ih]
    | finished | panicked | waiting => rfl

/-- What a stream yields is what its attempts yield. -/
theorem readAll_eq (max : Nat) (bytes : List UInt8) :
    readAll max bytes = (attempts max bytes).filterMap Attempt.item? :=
  readAllWithin_eq max _ bytes

end
end RpcPeer.Frame
