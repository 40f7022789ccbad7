import ChordSheet.Proofs.Grammar.Line
import ChordSheet.Proofs.Text.Lines

/-! The reader follows the grammar of lines.

* `Reader.readAll_split`: lexemes may be fed character by character.
* `Reader.readAll_chord`, `Reader.readAll_lyrics`, `Reader.readAll_body`: runs inside a line.
* `Reader.readAll_line`: a whole line, from its start to its end.
* `tokenize_eq_transcript`: a whole text.
* `tokens_of_lines`, `diagnostics_of_lines`: what is read in it, and what is wrong with it. -/
namespace ChordSheet
set_option autoImplicit false

def Transcript.append (t u : Transcript) : Transcript :=
  ⟨t.tokens ++ u.tokens, t.diagnostics ++ u.diagnostics⟩

namespace Transcript

theorem append_append (t u v : Transcript) : (t.append u).append v = t.append (u.append v) := by
  simp [append]

end Transcript

/-! ## Character by character -/

namespace Lexeme

def ofChar (c : Char) : Lexeme := ⟨(Kind.ofDelimiter? c).getD .literal, [c]⟩

theorem ofChar_plain {c : Char} (hc : Kind.ofDelimiter? c = none) : ofChar c = ⟨.literal, [c]⟩ := by
  rw [ofChar, hc]
  rfl

/-- A character is one of the eight delimiters or a plain one. -/
theorem char_cases {P : Char → Prop} (hash : P '#') (newline : P '\n') (opening : P '[')
    (closing : P ']') (quote : P '>') (colon : P ':') (chorus : P '!') (bridge : P '$')
    (plain : ∀ c, Kind.ofDelimiter? c = none → P c) (c : Char) : P c := by
  cases hc : Kind.ofDelimiter? c with
  | none => exact plain c hc
  | some kind =>
    unfold Kind.ofDelimiter? at hc
    split at hc
    · exact hash
    · exact newline
    · exact opening
    · exact closing
    · exact quote
    · exact colon
    · exact chorus
    · exact bridge
    · cases hc

end Lexeme

namespace Segment

theorem lyricsProblem?_plain {c : Char} (hc : Lexeme.Kind.ofDelimiter? c = none) :
    lyricsProblem? c = none := by
  unfold lyricsProblem?
  split
  · cases hc
  · cases hc
  · rfl

theorem chordProblem?_plain {c : Char} (hc : Lexeme.Kind.ofDelimiter? c = none) :
    chordProblem? c = none := by
  unfold chordProblem?
  split
  · cases hc
  · cases hc
  · cases hc
  · cases hc
  · cases hc
  · rfl

end Segment

/-- The mode after a text without any delimiter has been read. -/
def Mode.extend : Mode → Text → Mode
  | .start, s => .literal true s
  | .lineEnd, s => .literal true s
  | .header level modifier text, s => .header level modifier (some (text.getD [] ++ s))
  | .chord text, s => .chord (text ++ s)
  | .quote text, s => .quote (text ++ s)
  | .literal opensLine text, s => .literal opensLine (text ++ s)
  | .done, _ => .done

/-- The line break before a line becomes a token when the line begins. -/
def Mode.pending : Mode → Option Token
  | .lineEnd => some .newline
  | _ => none

/-- A line starts in one of two modes, and both take the line alike. -/
def Mode.AtStart (m : Mode) : Prop := m = .start ∨ m = .lineEnd

theorem Mode.extend_extend (m : Mode) (s t : Text) : (m.extend s).extend t = m.extend (s ++ t) := by
  cases m <;> simp [extend]

theorem Mode.pending_extend (m : Mode) (s : Text) : (m.extend s).pending = none := by
  cases m <;> rfl

namespace Reader

/-- The run over some lexemes, with what has been found before. -/
def readAfter (found : Transcript) (r : Reader) (xs : List Lexeme) : Except Fault Transcript :=
  (r.readAll xs).map found.append

theorem readAfter_nil (r : Reader) (xs : List Lexeme) : readAfter {} r xs = r.readAll xs := by
  unfold readAfter
  cases r.readAll xs <;> rfl

theorem readAfter_readAfter (t u : Transcript) (r : Reader) (xs : List Lexeme) :
    (readAfter u r xs).map t.append = readAfter (t.append u) r xs := by
  rw [readAfter, readAfter]
  cases r.readAll xs <;> simp [Except.map, Transcript.append_append]

/-- A step that does not end the input leaves the rest to the next reader. -/
theorem readAll_step {r next : Reader} {x : Lexeme} {token : Option Token}
    {found : Option Diagnostic} (h : r.feed x = .ok ⟨next, token, found⟩) (hm : next.mode ≠ .done)
    (xs : List Lexeme) :
    r.readAll (x :: xs) = readAfter ⟨token.toList, found.toList⟩ next xs := by
  rw [readAll, h]
  exact if_neg hm

theorem readAll_last {r next : Reader} {x : Lexeme} {token : Option Token}
    {found : Option Diagnostic} (h : r.feed x = .ok ⟨next, token, found⟩) (hm : next.mode = .done)
    (xs : List Lexeme) : r.readAll (x :: xs) = .ok ⟨token.toList, found.toList⟩ := by
  rw [readAll, h]
  simp [hm, Transcript.add]

/-- Lexemes that all readers read alike are read alike after a step, too. -/
theorem readAll_cons_congr (r : Reader) (x : Lexeme) {xs ys : List Lexeme}
    (h : ∀ r' : Reader, r'.readAll xs = r'.readAll ys) :
    r.readAll (x :: xs) = r.readAll (x :: ys) := by
  rw [readAll, readAll]
  split
  · rfl
  · rw [h]

theorem feed_literal {r : Reader} (hr : r.mode ≠ .done) (s : Text) :
    r.feed ⟨.literal, s⟩ = .ok ⟨⟨r.mode.extend s, r.line⟩, r.mode.pending, none⟩ := by
  obtain ⟨m, k⟩ := r
  cases m with
  | done => exact absurd rfl hr
  | _ => rfl

theorem extend_ne_done {m : Mode} (hm : m ≠ .done) (s : Text) : m.extend s ≠ .done := by
  cases m with
  | done => exact absurd rfl hm
  | _ => simp [Mode.extend]

theorem readAll_literal {r : Reader} (hr : r.mode ≠ .done) (s : Text) (xs : List Lexeme) :
    r.readAll (⟨.literal, s⟩ :: xs) =
      readAfter ⟨r.mode.pending.toList, []⟩ ⟨r.mode.extend s, r.line⟩ xs :=
  readAll_step (feed_literal hr s) (extend_ne_done hr s) xs

/-- A literal may be fed in pieces. -/
theorem readAll_literal_append (r : Reader) (s t : Text) (xs : List Lexeme) :
    r.readAll (⟨.literal, s ++ t⟩ :: xs) = r.readAll (⟨.literal, s⟩ :: ⟨.literal, t⟩ :: xs) := by
  by_cases hr : r.mode = .done
  · obtain ⟨m, k⟩ := r
    cases hr
    rfl
  · rw [readAll_literal hr, readAll_literal hr, readAfter, readAfter,
      readAll_literal (extend_ne_done hr s), Mode.extend_extend, Mode.pending_extend]
    exact congrArg _ (readAfter_nil _ xs).symm

theorem readAll_join (r : Reader) (c : Char) (xs : List Lexeme) :
    r.readAll (Lexeme.join c xs) = r.readAll (⟨.literal, [c]⟩ :: xs) := by
  cases xs with
  | nil => rfl
  | cons x xs =>
    obtain ⟨kind, s⟩ := x
    cases kind with
    | literal => exact readAll_literal_append r [c] s xs
    | _ => rfl

/-- The delimiters and the runs between them are read as the characters are one by one. -/
theorem readAll_split (r : Reader) (s : Text) :
    r.readAll (Lexeme.split s) = r.readAll (s.map Lexeme.ofChar ++ [⟨.eof, []⟩]) := by
  induction s generalizing r with
  | nil => rfl
  | cons c s ih =>
    rw [Lexeme.split, List.map_cons, List.cons_append, Lexeme.ofChar]
    cases h : Lexeme.Kind.ofDelimiter? c with
    | some kind => exact readAll_cons_congr r _ ih
    | none =>
      rw [readAll_join]
      exact readAll_cons_congr r _ ih

/-! ## Single characters -/

section Characters
variable (k : Nat) {c : Char}

theorem feed_quote (hc : c ≠ '\n') (text : Text) :
    feed ⟨.quote text, k⟩ (.ofChar c) = .ok ⟨⟨.quote (text ++ [c]), k⟩, none, none⟩ := by
  cases c using Lexeme.char_cases with
  | newline => exact absurd rfl hc
  | plain c hp =>
    rw [Lexeme.ofChar_plain hp]
    rfl
  | _ => rfl

theorem feed_headerText (hc : c ≠ '\n') (level : Nat) {modifier : Modifier} {text : Option Text}
    (h : text = none → modifier ≠ .none) :
    feed ⟨.header level modifier text, k⟩ (.ofChar c) =
      .ok ⟨⟨.header level modifier (some (text.getD [] ++ [c])), k⟩, none, none⟩ := by
  have hm : ¬ (text = none ∧ modifier = .none) := fun ⟨ht, hm⟩ => h ht hm
  have hmark : ∀ more other : Mode.Reaction,
      (if text = none ∧ modifier = .none then other else more) = more := fun _ _ => if_neg hm
  cases c using Lexeme.char_cases with
  | newline => exact absurd rfl hc
  | hash => exact congrArg (fun r => Except.map _ (.ok r)) (hmark _ _)
  | chorus => exact congrArg (fun r => Except.map _ (.ok r)) (hmark _ _)
  | bridge => exact congrArg (fun r => Except.map _ (.ok r)) (hmark _ _)
  | plain c hp =>
    rw [Lexeme.ofChar_plain hp]
    rfl
  | _ => rfl

theorem feed_chord (hc : c ≠ '\n') (hb : c ≠ ']') (text : Text) :
    feed ⟨.chord text, k⟩ (.ofChar c) =
      .ok ⟨⟨.chord (text ++ [c]), k⟩, none, (Segment.chordProblem? c).map (⟨·, k⟩)⟩ := by
  cases c using Lexeme.char_cases with
  | newline => exact absurd rfl hc
  | closing => exact absurd rfl hb
  | plain c hp =>
    rw [Lexeme.ofChar_plain hp, Segment.chordProblem?_plain hp]
    rfl
  | _ => rfl

theorem feed_lyrics (hc : c ≠ '\n') (hb : c ≠ '[') (opensLine : Bool) (text : Text) :
    feed ⟨.literal opensLine text, k⟩ (.ofChar c) =
      .ok ⟨⟨.literal opensLine (text ++ [c].filter (· != ']')), k⟩, none,
        (Segment.lyricsProblem? c).map (⟨·, k⟩)⟩ := by
  cases c using Lexeme.char_cases with
  | newline => exact absurd rfl hc
  | opening => exact absurd rfl hb
  | closing =>
    have hnil : [']'].filter (· != ']') = [] := rfl
    rw [hnil, List.append_nil]
    rfl
  | plain c hp =>
    have hs : c ≠ ']' := by
      rintro rfl
      cases hp
    rw [List.filter_cons_of_pos (by simpa using hs), Lexeme.ofChar_plain hp,
      Segment.lyricsProblem?_plain hp]
    rfl
  | _ => rfl

end Characters

/-! ## The end of a line -/

/-- A line ends at its break or, the last one, at the end of the input. -/
def closer (last : Bool) : Lexeme := if last then ⟨.eof, []⟩ else ⟨.newline, ['\n']⟩

def endMode (last : Bool) : Mode := if last then .done else .lineEnd

def afterLine (last : Bool) (k : Nat) (xs : List Lexeme) : Except Fault Transcript :=
  if last then .ok {} else readAll ⟨.lineEnd, k + 1⟩ xs

/-- What a line has given, before what the lines after it give. -/
def finish (last : Bool) (k : Nat) (xs : List Lexeme) (ts : List Token) (ps : List Problem) :
    Except Fault Transcript :=
  (afterLine last k xs).map (Transcript.append ⟨ts, ps.map (⟨·, k⟩)⟩)

theorem readAll_closer {m : Mode} {last : Bool} {p : Option Problem}
    (h : m.react (closer last) = .ok (.turn (endMode last), p)) (k : Nat) (xs : List Lexeme) :
    readAll ⟨m, k⟩ (closer last :: xs) =
      finish last k xs (m.token? (endMode last)).toList p.toList := by
  have hp : (p.map (⟨·, k⟩) : Option Diagnostic).toList = p.toList.map (⟨·, k⟩) := by
    cases p <;> rfl
  rw [finish, ← hp]
  cases last with
  | true =>
    have hf : feed ⟨m, k⟩ (closer true) =
        .ok ⟨⟨.done, k⟩, m.token? .done, p.map (⟨·, k⟩)⟩ := by
      rw [feed, h]
      rfl
    rw [readAll_last hf rfl]
    simp [afterLine, Except.map, Transcript.append, endMode]
  | false =>
    have hf : feed ⟨m, k⟩ (closer false) =
        .ok ⟨⟨.lineEnd, k + 1⟩, m.token? .lineEnd, p.map (⟨·, k⟩)⟩ := by
      rw [feed, h]
      rfl
    exact readAll_step hf (by simp) xs

theorem readAfter_finish {r : Reader} {ys xs : List Lexeme} {last : Bool} {k : Nat}
    {us : List Token} {qs : List Problem} (h : r.readAll ys = finish last k xs us qs)
    (ts : List Token) (ps : List Problem) :
    readAfter ⟨ts, ps.map (⟨·, k⟩)⟩ r ys = finish last k xs (ts ++ us) (ps ++ qs) := by
  rw [readAfter, h, finish, finish]
  cases afterLine last k xs <;> simp [Except.map, Transcript.append]

/-! ## Headlines and quotes -/

section Runs
variable {k : Nat} {last : Bool} {xs : List Lexeme}

theorem readAll_quote {l : Text} (hl : '\n' ∉ l) (text : Text) :
    readAll ⟨.quote text, k⟩ (l.map Lexeme.ofChar ++ closer last :: xs) =
      finish last k xs [.quote (stripLeft (text ++ l))]
        (if last then [.unexpectedEndOfFile] else []) := by
  induction l generalizing text with
  | nil =>
    rw [List.append_nil, List.map_nil, List.nil_append,
      readAll_closer (p := if last then some .unexpectedEndOfFile else none)]
    · cases last <;> rfl
    · cases last <;> rfl
  | cons c l ih =>
    rw [List.mem_cons, not_or] at hl
    rw [List.map_cons, List.cons_append, readAll_step (feed_quote k (Ne.symm hl.1) text) (by simp)]
    simpa using readAfter_finish (ih hl.2 (text ++ [c])) [] []

theorem readAll_headerText {l : Text} (hl : '\n' ∉ l) (level : Nat) {modifier : Modifier}
    {text : Option Text} (h : text = none → modifier ≠ .none) :
    readAll ⟨.header level modifier text, k⟩ (l.map Lexeme.ofChar ++ closer last :: xs) =
      finish last k xs [.headline ⟨level, stripLeft (text.getD [] ++ l), modifier⟩]
        (if last then [.unexpectedEndOfFile] else []) := by
  induction l generalizing text with
  | nil =>
    rw [List.append_nil, List.map_nil, List.nil_append,
      readAll_closer (p := if last then some .unexpectedEndOfFile else none)]
    · cases last <;> rfl
    · cases last <;> rfl
  | cons c l ih =>
    rw [List.mem_cons, not_or] at hl
    rw [List.map_cons, List.cons_append,
      readAll_step (feed_headerText k (Ne.symm hl.1) level h) (by simp)]
    have hsome : some (text.getD [] ++ [c]) = none → modifier ≠ .none := nofun
    simpa using readAfter_finish (ih hl.2 hsome) [] []

theorem readAll_header {l : Text} (hl : '\n' ∉ l) (n : Nat) :
    readAll ⟨.header n .none none, k⟩ (l.map Lexeme.ofChar ++ closer last :: xs) =
      finish last k xs [.headline { Line.headline l with level := n + (Line.headline l).level }]
        (if last then [.unexpectedEndOfFile] else []) := by
  induction l generalizing n with
  | nil =>
    rw [List.map_nil, List.nil_append,
      readAll_closer (p := if last then some .unexpectedEndOfFile else none)]
    · cases last <;> rfl
    · cases last <;> rfl
  | cons c l ih =>
    rw [List.mem_cons, not_or] at hl
    rw [List.map_cons, List.cons_append]
    by_cases hh : c = '#'
    · subst hh
      have hf : feed ⟨.header n .none none, k⟩ (.ofChar '#') =
          .ok ⟨⟨.header (n + 1) .none none, k⟩, none, none⟩ := rfl
      rw [readAll_step hf (by simp), Line.headline_hash]
      simpa [Nat.add_assoc, Nat.add_comm 1] using readAfter_finish (ih hl.2 (n + 1)) [] []
    by_cases hc : c = '!'
    · subst hc
      have hf : feed ⟨.header n .none none, k⟩ (.ofChar '!') =
          .ok ⟨⟨.header n .chorus none, k⟩, none, none⟩ := rfl
      have hm : (none : Option Text) = none → Modifier.chorus ≠ .none := fun _ => nofun
      rw [readAll_step hf (by simp), Line.headline_chorus]
      simpa using readAfter_finish (readAll_headerText hl.2 n hm) [] []
    by_cases hb : c = '$'
    · subst hb
      have hf : feed ⟨.header n .none none, k⟩ (.ofChar '$') =
          .ok ⟨⟨.header n .bridge none, k⟩, none, none⟩ := rfl
      have hm : (none : Option Text) = none → Modifier.bridge ≠ .none := fun _ => nofun
      rw [readAll_step hf (by simp), Line.headline_bridge]
      simpa using readAfter_finish (readAll_headerText hl.2 n hm) [] []
    · have hf : feed ⟨.header n .none none, k⟩ (.ofChar c) =
          .ok ⟨⟨.header n .none (some [c]), k⟩, none, none⟩ := by
        cases c using Lexeme.char_cases with
        | newline => exact absurd rfl hl.1
        | hash => exact absurd rfl hh
        | chorus => exact absurd rfl hc
        | bridge => exact absurd rfl hb
        | plain c hp =>
          rw [Lexeme.ofChar_plain hp]
          rfl
        | _ => rfl
      have hsome : some [c] = none → Modifier.none ≠ .none := nofun
      rw [readAll_step hf (by simp), Line.headline_other hh hc hb]
      simpa using readAfter_finish (readAll_headerText hl.2 n hsome) [] []

/-! ## Bodies -/

theorem readAll_chord {x : Text} (hn : '\n' ∉ x) (hx : ']' ∉ x) (text : Text)
    (ys : List Lexeme) :
    readAll ⟨.chord text, k⟩ (x.map Lexeme.ofChar ++ ys) =
      readAfter ⟨[], (Segment.chord x true).problems.map (⟨·, k⟩)⟩ ⟨.chord (text ++ x), k⟩ ys := by
  induction x generalizing text with
  | nil => simp [readAfter_nil, Segment.problems]
  | cons c x ih =>
    rw [List.mem_cons, not_or] at hn hx
    rw [List.map_cons, List.cons_append,
      readAll_step (feed_chord k (Ne.symm hn.1) (Ne.symm hx.1) text) (by simp), readAfter,
      ih hn.2 hx.2, readAfter_readAfter]
    cases h : Segment.chordProblem? c <;>
      simp [Transcript.append, Segment.problems, h]

theorem readAll_lyrics {s : Text} (hn : '\n' ∉ s) (hs : '[' ∉ s) (opensLine : Bool) (text : Text)
    (ys : List Lexeme) :
    readAll ⟨.literal opensLine text, k⟩ (s.map Lexeme.ofChar ++ ys) =
      readAfter ⟨[], (Segment.lyrics s).problems.map (⟨·, k⟩)⟩
        ⟨.literal opensLine (text ++ s.filter (· != ']')), k⟩ ys := by
  induction s generalizing text with
  | nil => simp [readAfter_nil, Segment.problems]
  | cons c s ih =>
    rw [List.mem_cons, not_or] at hn hs
    rw [List.map_cons, List.cons_append,
      readAll_step (feed_lyrics k (Ne.symm hn.1) (Ne.symm hs.1) opensLine text) (by simp),
      readAfter, ih hn.2 hs.2, readAfter_readAfter, List.append_assoc, ← List.filter_append,
      List.singleton_append]
    cases h : Segment.lyricsProblem? c <;>
      simp [Transcript.append, Segment.problems, h]

theorem literalToken?_toList (whole : Bool) (s : Text) :
    (Mode.literalToken? whole (s.filter (· != ']'))).toList =
      if whole then (Segment.lyrics s).tokens.map Line.recognize
      else (Segment.lyrics s).tokens := by
  rw [Segment.tokens, Mode.literalToken?]
  cases s.filter (· != ']') with
  | nil => cases whole <;> rfl
  | cons c t =>
    cases whole with
    | false => rfl
    | true =>
      simp only [List.isEmpty_cons, if_true, List.map_cons, List.map_nil, Line.recognize]
      cases Entry.read? (c :: t) <;> rfl

theorem readAll_toChord (opensLine : Bool) {s x : Text} (hn : '\n' ∉ s) (hs : '[' ∉ s)
    (hm : '\n' ∉ x) (hx : ']' ∉ x) (ys : List Lexeme) :
    readAll ⟨.literal opensLine [], k⟩
        (s.map Lexeme.ofChar ++ Lexeme.ofChar '[' :: (x.map Lexeme.ofChar ++ ys)) =
      readAfter ⟨(Segment.lyrics s).tokens,
        ((Segment.lyrics s).problems ++ (Segment.chord x true).problems).map (⟨·, k⟩)⟩
        ⟨.chord x, k⟩ ys := by
  have hf : feed ⟨.literal opensLine (s.filter (· != ']')), k⟩ (.ofChar '[') =
      .ok ⟨⟨.chord [], k⟩, Mode.literalToken? false (s.filter (· != ']')), none⟩ := by
    cases opensLine <;> rfl
  rw [readAll_lyrics hn hs, List.nil_append, readAfter, readAll_step hf (by simp),
    readAfter_readAfter, readAfter, readAll_chord hm hx, readAfter_readAfter, literalToken?_toList]
  simp [Transcript.append]

theorem readAll_body (opensLine : Bool) (l : Text) (hl : '\n' ∉ l) :
    readAll ⟨.literal opensLine [], k⟩ (l.map Lexeme.ofChar ++ closer last :: xs) =
      finish last k xs (Line.bodyTokens opensLine l)
        ((Line.segments l).flatMap Segment.problems ++
          (if last then [.unexpectedEndOfFile]
            else if (Line.segments l).any Segment.isOpen then [.unclosedChord] else [])) := by
  induction l using Line.segments_induction generalizing opensLine with
  | lyrics s hs =>
    have hr : (Mode.literal opensLine (s.filter (· != ']'))).react (closer last) =
        .ok (.turn (endMode last), if last then some .unexpectedEndOfFile else none) := by
      cases last <;> rfl
    have hc := readAll_closer hr k xs
    rw [readAll_lyrics hl hs, List.nil_append, readAfter_finish hc, Mode.token?,
      literalToken?_toList, Line.bodyTokens_lyrics hs, Line.segments_lyrics hs]
    cases last <;> cases opensLine <;> simp [endMode, Mode.endsLine, Segment.isOpen]
  | unclosed s x hs hx =>
    simp only [List.mem_append, List.mem_cons, not_or] at hl
    have hr : (Mode.chord x).react (closer last) = .ok (.turn (endMode last),
        if last then some .unexpectedEndOfFile else some .unclosedChord) := by
      cases last <;> rfl
    have hc := readAll_closer hr k xs
    rw [List.map_append, List.map_cons, List.append_assoc, List.cons_append,
      readAll_toChord opensLine hl.1 hs hl.2.2 hx, readAfter_finish hc,
      Line.bodyTokens_unclosed hs hx, Line.segments_unclosed hs hx]
    cases last <;> simp [Mode.token?, Segment.isOpen, Segment.problems]
  | closed s x r hs hx ih =>
    simp only [List.mem_append, List.mem_cons, not_or] at hl
    have hf : feed ⟨.chord x, k⟩ (.ofChar ']') =
        .ok ⟨⟨.literal false [], k⟩, some (.chord x), none⟩ := rfl
    have hr := (readAll_step hf (by simp) _).trans
      (readAfter_finish (ih false hl.2.2.2.2) [.chord x] [])
    rw [List.map_append, List.map_cons, List.map_append, List.map_cons, List.append_assoc,
      List.cons_append, List.append_assoc, List.cons_append,
      readAll_toChord opensLine hl.1 hs hl.2.2.1 hx, readAfter_finish hr,
      Line.bodyTokens_closed hs hx, Line.segments_closed hs hx]
    simp [Segment.isOpen, Segment.problems]

/-! ## Whole lines -/

theorem feed_bodyStart {m : Mode} (hm : m.AtStart) {c : Char} (hn : c ≠ '\n') (hh : c ≠ '#')
    (hq : c ≠ '>') (hb : c ≠ ']') :
    ∃ next : Reader, next.mode ≠ .done ∧
      feed ⟨m, k⟩ (.ofChar c) = .ok ⟨next, m.pending, none⟩ ∧
      feed ⟨.literal true [], k⟩ (.ofChar c) = .ok ⟨next, none, none⟩ := by
  cases c using Lexeme.char_cases with
  | newline => exact absurd rfl hn
  | hash => exact absurd rfl hh
  | quote => exact absurd rfl hq
  | closing => exact absurd rfl hb
  | opening =>
    refine ⟨⟨.chord [], k⟩, by simp, ?_, rfl⟩
    rcases hm with rfl | rfl <;> rfl
  | plain c hp =>
    rw [Lexeme.ofChar_plain hp]
    refine ⟨⟨.literal true [c], k⟩, by simp, ?_, rfl⟩
    rcases hm with rfl | rfl <;> rfl
  | _ =>
    refine ⟨⟨.literal true _, k⟩, by simp, ?_, rfl⟩
    rcases hm with rfl | rfl <;> rfl

theorem readAll_content {m : Mode} (hm : m.AtStart) (l : Text) (hn : '\n' ∉ l)
    (hb : l.head? ≠ some ']') :
    readAll ⟨m, k⟩ (l.map Lexeme.ofChar ++ closer last :: xs) =
      finish last k xs (m.pending.toList ++ Line.contentTokens l)
        (Line.contentProblems l ++
          if last then (if l.isEmpty then [] else [.unexpectedEndOfFile])
          else if Line.endsInChord l then [.unclosedChord] else []) := by
  cases l with
  | nil =>
    rw [List.map_nil, List.nil_append, readAll_closer (p := none)]
    · rcases hm with rfl | rfl <;> cases last <;> rfl
    · rcases hm with rfl | rfl <;> cases last <;> rfl
  | cons c l =>
    rw [List.mem_cons, not_or] at hn
    rw [List.map_cons, List.cons_append]
    by_cases hh : c = '#'
    · subst hh
      have hf : feed ⟨m, k⟩ (.ofChar '#') =
          .ok ⟨⟨.header 1 .none none, k⟩, m.pending, none⟩ := by
        rcases hm with rfl | rfl <;> rfl
      rw [readAll_step hf (by simp)]
      refine (readAfter_finish (readAll_header hn.2 1) m.pending.toList []).trans ?_
      rw [Line.contentTokens, Line.headline_hash, Nat.add_comm 1]
      rfl
    by_cases hq : c = '>'
    · subst hq
      have hf : feed ⟨m, k⟩ (.ofChar '>') = .ok ⟨⟨.quote [], k⟩, m.pending, none⟩ := by
        rcases hm with rfl | rfl <;> rfl
      rw [readAll_step hf (by simp)]
      exact readAfter_finish (readAll_quote hn.2 []) m.pending.toList []
    · obtain ⟨next, hd, hf, hg⟩ := feed_bodyStart (k := k) hm (Ne.symm hn.1) hh hq
        (by simpa using hb)
      have h : readAll ⟨.literal true [], k⟩ ((c :: l).map Lexeme.ofChar ++ closer last :: xs) =
          finish last k xs _ _ := readAll_body true (c :: l) (by simp [hn])
      rw [List.map_cons, List.cons_append, readAll_step hg hd] at h
      rw [readAll_step hf hd]
      rw [Line.contentTokens_body hh hq, Line.contentProblems_body hh hq,
        Line.endsInChord_body hh hq]
      exact readAfter_finish ((readAfter_nil next _).symm.trans h) m.pending.toList []

theorem readAll_line {m : Mode} (hm : m.AtStart) (l : Text) (hn : '\n' ∉ l) :
    readAll ⟨m, k⟩ (l.map Lexeme.ofChar ++ closer last :: xs) =
      finish last k xs (m.pending.toList ++ Line.tokens l)
        (Line.problems l ++ (Line.endProblem? last l).toList) := by
  induction l with
  | nil =>
    rw [readAll_content hm [] hn (by simp)]
    cases last <;> rfl
  | cons c l ih =>
    by_cases hb : c = ']'
    · subst hb
      have hf : feed ⟨m, k⟩ (.ofChar ']') =
          .ok ⟨⟨m, k⟩, none, some ⟨.unexpectedChordEnd, k⟩⟩ := by
        rcases hm with rfl | rfl <;> rfl
      rw [List.mem_cons, not_or] at hn
      rw [List.map_cons, List.cons_append, readAll_step hf (by rcases hm with rfl | rfl <;> simp)]
      exact readAfter_finish (ih hn.2) [] [.unexpectedChordEnd]
    · have hc : (c :: l).head? ≠ some ']' := by simpa using hb
      rw [readAll_content hm (c :: l) hn hc, Line.tokens, Line.problems_of_head hc,
        Line.endProblem?, Line.content_of_head hc]
      cases last <;> cases Line.endsInChord (c :: l) <;> rfl

theorem readAll_lines {m : Mode} (hm : m.AtStart) (k : Nat) (ls : List Text)
    (hne : ls ≠ []) (hn : ∀ l ∈ ls, '\n' ∉ l) :
    readAll ⟨m, k⟩ ((['\n'].intercalate ls).map Lexeme.ofChar ++ [⟨.eof, []⟩]) =
      .ok (Transcript.append ⟨m.pending.toList, []⟩ (Line.transcript k ls)) := by
  induction ls generalizing m k with
  | nil => exact absurd rfl hne
  | cons l ls ih =>
    obtain ⟨hl, hls⟩ := List.forall_mem_cons.mp hn
    cases ls with
    | nil =>
      rw [List.intercalate_singleton]
      have hlast : readAll ⟨m, k⟩ (l.map Lexeme.ofChar ++ [closer true]) = finish true k [] _ _ :=
        readAll_line hm l hl
      apply hlast.trans
      simp [finish, afterLine, Except.map, Transcript.append, Line.transcript, Line.diagnostics]
    | cons l' ls =>
      have ht := ih (m := .lineEnd) (.inr rfl) (k + 1) (by simp) hls
      rw [List.intercalate_cons_cons, List.append_assoc, List.map_append, List.append_assoc,
        List.singleton_append, List.map_cons, List.cons_append]
      have hline : ∀ xs, readAll ⟨m, k⟩ (l.map Lexeme.ofChar ++ closer false :: xs) =
          finish false k xs _ _ := fun xs => readAll_line hm l hl
      refine (hline _).trans ?_
      rw [finish, afterLine, if_neg (by simp), ht]
      simp [Except.map, Transcript.append, Line.transcript, Line.diagnostics, Mode.pending]

end Runs

end Reader

/-! ## Whole texts -/

theorem tokenize_eq_transcript (s : Text) :
    tokenize s = .ok (Line.transcript 1 ((normalizeBreaks s).splitOn '\n')) := by
  have h := Reader.readAll_lines (m := .start) (.inl rfl) 1 ((normalizeBreaks s).splitOn '\n')
    (List.splitOn_ne_nil _ _) (fun _ hl => not_mem_of_mem_splitOn hl)
  rw [List.intercalate_splitOn] at h
  rw [tokenize, Lexeme.scan, Reader.readAll_split]
  exact h

/-- The tokens of a text are those of its lines, with a line break between any two lines. -/
theorem tokens_of_lines (s : Text) :
    (tokenize s).map (·.tokens) =
      .ok ([.newline].intercalate (((normalizeBreaks s).splitOn '\n').map Line.tokens)) := by
  rw [tokenize_eq_transcript, ← Line.transcript_tokens]
  rfl

/-- The diagnostics of a text are those of its lines, in their order and with their numbers. -/
theorem diagnostics_of_lines (s : Text) :
    (tokenize s).map (·.diagnostics) =
      .ok (Line.report ((normalizeBreaks s).splitOn '\n')) := by
  rw [tokenize_eq_transcript, ← Line.transcript_diagnostics]
  rfl

end ChordSheet
