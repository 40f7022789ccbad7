import ChordSheet.Proofs.Grammar.Independence
import ChordSheet.Proofs.Metadata.First

/-! The reader as a machine with registers.

A mode of the reader has in it just what has been read of its construct. Here the same stands in
registers, which are there in every phase, are written and cleared one by one, and could hold
anything; that they never hold what does not belong to the phase is what is proved of them.

* `Phase`, `Registers`: the construct that is being read, and all that has been read of it.
* `Registers.feed`: one lexeme; a machine that cannot be fed stays as it is.
* `Registers.Fits`: what the registers may hold in a phase.
* `Registers.Mirrors`: a change of the registers is a reaction of their mode.
* `Registers.feed_mirrors`: a machine that fits is fed as its reader is, and fits again.
* `Registers.run_invariants`: what holds of a machine after any lexemes. -/
namespace ChordSheet
set_option autoImplicit false

/-! ## The machine -/

inductive Phase
  | start
  | lineEnd
  | header
  | chord
  | quote
  | literal
  | done
  deriving DecidableEq, Repr

namespace Phase

def opensLine : Phase → Bool
  | start => true
  | lineEnd => true
  | _ => false

def endsLine : Phase → Bool
  | lineEnd => true
  | done => true
  | _ => false

end Phase

structure Registers where
  phase : Phase := .start
  line : Nat := 1
  diagnostics : List Diagnostic := []
  buffer : List Text := []
  level : Nat := 0
  modifier : Modifier := .none
  opensLine : Bool := false
  deriving DecidableEq, Repr

namespace Registers

def text (r : Registers) : Text := r.buffer.flatten

def append (r : Registers) (x : Lexeme) : Registers := { r with buffer := r.buffer ++ [x.text] }

def report (r : Registers) (p : Problem) : Registers :=
  { r with diagnostics := r.diagnostics ++ [⟨p, r.line⟩] }

/-- The registers when a lexeme has been looked at, and the phase that begins, if any does. -/
abbrev Change := Registers × Option Phase

def atLineStart (r : Registers) (x : Lexeme) : Change :=
  match x.kind with
  | .headerStart => ({ r with level := 1 }, some .header)
  | .newline => (r, some .lineEnd)
  | .chordStart => (r, some .chord)
  | .quoteStart => (r, some .quote)
  | .chordEnd => (r.report .unexpectedChordEnd, none)
  | .eof => (r, some .done)
  | _ => (r.append x, some .literal)

/-- Marks count as long as nothing has been buffered, be it an empty text. -/
def inHeader (r : Registers) (x : Lexeme) : Change :=
  match x.kind with
  | .newline => (r, some .lineEnd)
  | .eof => (r.report .unexpectedEndOfFile, some .done)
  | .headerStart =>
    if r.buffer = [] ∧ r.modifier = .none then ({ r with level := r.level + 1 }, none)
    else (r.append x, none)
  | .chorusMark =>
    if r.buffer = [] ∧ r.modifier = .none then ({ r with modifier := .chorus }, none)
    else (r.append x, none)
  | .bridgeMark =>
    if r.buffer = [] ∧ r.modifier = .none then ({ r with modifier := .bridge }, none)
    else (r.append x, none)
  | _ => (r.append x, none)

def inChord (r : Registers) (x : Lexeme) : Change :=
  match x.kind with
  | .headerStart => (r.append x, none)
  | .newline => (r.report .unclosedChord, some .lineEnd)
  | .chordStart => ((r.append x).report .nestedChord, none)
  | .chordEnd => (r, some .literal)
  | .eof => (r.report .unexpectedEndOfFile, some .done)
  | .literal => (r.append x, none)
  | _ => ((r.report .invalidChordCharacter).append x, none)

def inQuote (r : Registers) (x : Lexeme) : Change :=
  match x.kind with
  | .newline => (r, some .lineEnd)
  | .eof => (r.report .unexpectedEndOfFile, some .done)
  | _ => (r.append x, none)

def inLiteral (r : Registers) (x : Lexeme) : Change :=
  match x.kind with
  | .newline => (r, some .lineEnd)
  | .chordStart => (r, some .chord)
  | .chordEnd => (r.report .unexpectedChordEnd, none)
  | .eof => (r.report .unexpectedEndOfFile, some .done)
  | .headerStart => ((r.report .unexpectedHeaderStart).append x, none)
  | _ => (r.append x, none)

def change (r : Registers) (x : Lexeme) : Except Fault Change :=
  match r.phase with
  | .start => .ok (r.atLineStart x)
  | .lineEnd => .ok (r.atLineStart x)
  | .header => .ok (r.inHeader x)
  | .chord => .ok (r.inChord x)
  | .quote => .ok (r.inQuote x)
  | .literal => .ok (r.inLiteral x)
  | .done => .error .pastEnd

def token? (r : Registers) (next : Phase) : Option Token :=
  match r.phase with
  | .start => none
  | .lineEnd => some .newline
  | .header => some (.headline ⟨r.level, stripLeft r.text, r.modifier⟩)
  | .chord => some (.chord r.text)
  | .quote => some (.quote (stripLeft r.text))
  | .literal => Mode.literalToken? (r.opensLine && next.endsLine) r.text
  | .done => none

/-- A construct that ends clears its own registers; at the start of a line none is cleared. -/
def clear (r : Registers) : Registers :=
  match r.phase with
  | .header => { r with buffer := [], level := 0, modifier := .none }
  | .chord => { r with buffer := [] }
  | .quote => { r with buffer := [] }
  | .literal => { r with buffer := [] }
  | _ => r

def turn (r : Registers) (next : Phase) : Registers :=
  { r.clear with
    phase := next
    opensLine := if next = .literal then r.phase.opensLine else r.opensLine }

def countLine (r : Registers) (x : Lexeme) : Registers :=
  { r with line := if x.kind = .newline then r.line + 1 else r.line }

/-- Nothing can be fed after the end of the input. -/
def feed (r : Registers) (x : Lexeme) : Registers × Except Fault (Option Token) :=
  match r.change x with
  | .error fault => (r, .error fault)
  | .ok (s, none) => (s.countLine x, .ok none)
  | .ok (s, some next) => ((s.turn next).countLine x, .ok (s.token? next))

def after (r : Registers) (xs : List Lexeme) : Registers := xs.foldl (fun r x => (r.feed x).1) r

def results (r : Registers) : List Lexeme → List (Except Fault (Option Token))
  | [] => []
  | x :: xs => (r.feed x).2 :: (r.feed x).1.results xs

/-- The lexemes that are not refused. -/
def taken (r : Registers) : List Lexeme → List Lexeme
  | [] => []
  | x :: xs => match (r.feed x).2 with
    | .ok _ => x :: (r.feed x).1.taken xs
    | .error _ => (r.feed x).1.taken xs

/-! ## Registers and modes -/

/-- What the registers may hold in a phase. -/
def Fits (r : Registers) : Prop :=
  match r.phase with
  | .start => r.buffer = [] ∧ r.level = 0 ∧ r.modifier = .none
  | .lineEnd => r.buffer = [] ∧ r.level = 0 ∧ r.modifier = .none
  | .header => 1 ≤ r.level
  | .chord => r.level = 0 ∧ r.modifier = .none
  | .quote => r.level = 0 ∧ r.modifier = .none
  | .literal => r.level = 0 ∧ r.modifier = .none
  | .done => r.buffer = [] ∧ r.level = 0 ∧ r.modifier = .none

def headText (r : Registers) : Option Text := if r.buffer = [] then none else some r.text

/-- The mode takes from the registers what belongs to the phase. -/
def mode (r : Registers) : Mode :=
  match r.phase with
  | .start => .start
  | .lineEnd => .lineEnd
  | .header => .header r.level r.modifier r.headText
  | .chord => .chord r.text
  | .quote => .quote r.text
  | .literal => .literal r.opensLine r.text
  | .done => .done

def reader (r : Registers) : Reader := ⟨r.mode, r.line⟩

theorem text_append (r : Registers) (x : Lexeme) : (r.append x).text = r.text ++ x.text := by
  simp [text, append]

theorem headText_eq_none_iff (r : Registers) : r.headText = none ↔ r.buffer = [] := by
  rw [headText]
  split_ifs with hb <;> simp [hb]

theorem headText_getD (r : Registers) : r.headText.getD [] = r.text := by
  rw [headText]
  split_ifs with hb
  · simp [text, hb]
  · rfl

theorem headText_append (r : Registers) (x : Lexeme) :
    (r.append x).headText = some (r.headText.getD [] ++ x.text) := by
  have hne : (r.append x).buffer ≠ [] := by simp [append]
  rw [headText, if_neg hne, text_append, headText_getD]

/-- At most one problem more, on the line that is being read. -/
structure Notes (r : Registers) (p : Option Problem) (s : Registers) : Prop where
  line : s.line = r.line
  diagnostics : s.diagnostics = r.diagnostics ++ (p.map (⟨·, r.line⟩)).toList

/-- A change of the registers is a reaction of their mode, and it leaves registers that fit. -/
inductive Mirrors (r : Registers) : Change → Mode.Reaction → Prop
  | stay {s : Registers} {m : Mode} {p : Option Problem} (hs : s.Fits) (hm : s.mode = m)
      (notes : r.Notes p s) : Mirrors r (s, none) (.stay m, p)
  | turn {s : Registers} {m : Mode} {p : Option Problem} {next : Phase} (hs : (s.turn next).Fits)
      (hm : (s.turn next).mode = m) (ht : s.token? next = r.mode.token? m) (notes : r.Notes p s) :
      Mirrors r (s, some next) (.turn m, p)

theorem notes_quiet {r s : Registers} (hline : s.line = r.line)
    (hdiagnostics : s.diagnostics = r.diagnostics) : r.Notes none s :=
  ⟨hline, by rw [hdiagnostics]; exact (List.append_nil _).symm⟩

section Constructs
variable {r : Registers} (h : r.Fits) (x : Lexeme)
include h

theorem mirrors_atLineStart (hr : r.phase = .start ∨ r.phase = .lineEnd) :
    Mirrors r (r.atLineStart x) (Mode.atLineStart r.mode x) := by
  obtain ⟨phase, line, diagnostics, buffer, level, modifier, opensLine⟩ := r
  obtain ⟨kind, s⟩ := x
  obtain ⟨rfl, rfl, rfl⟩ : buffer = [] ∧ level = 0 ∧ modifier = .none := by
    rcases hr with rfl | rfl <;> exact h
  rcases hr with rfl | rfl
  all_goals
    cases kind with
    | headerStart => exact .turn (Nat.le_refl 1) rfl rfl (notes_quiet rfl rfl)
    | chordEnd => exact .stay ⟨rfl, rfl, rfl⟩ rfl ⟨rfl, rfl⟩
    | newline | eof => exact .turn ⟨rfl, rfl, rfl⟩ rfl rfl (notes_quiet rfl rfl)
    | chordStart | quoteStart => exact .turn ⟨rfl, rfl⟩ rfl rfl (notes_quiet rfl rfl)
    | _ =>
      -- what opens the line is buffered before the phase begins, and is not cleared
      have htext : [s].flatten = s := List.append_nil s
      exact .turn ⟨rfl, rfl⟩ (congrArg (Mode.literal true) htext) rfl (notes_quiet rfl rfl)

/-- A mark counts in the mode if it counts in the registers, and else it is text in both. -/
theorem mirrors_mark (hr : r.phase = .header) {counted : Registers} {m : Mode}
    (hfits : counted.Fits) (hnotes : r.Notes none counted)
    (hcounted : r.buffer = [] → r.modifier = .none → counted.mode = m) :
    Mirrors r (if r.buffer = [] ∧ r.modifier = .none then (counted, none) else (r.append x, none))
      (if r.headText = none ∧ r.modifier = .none then (.stay m, none)
        else (.stay (.header r.level r.modifier (some (r.headText.getD [] ++ x.text))), none)) := by
  by_cases hc : r.buffer = [] ∧ r.modifier = .none
  · rw [if_pos hc, if_pos (by rwa [headText_eq_none_iff])]
    exact .stay hfits (hcounted hc.1 hc.2) hnotes
  · rw [if_neg hc, if_neg (by rwa [headText_eq_none_iff])]
    refine .stay ?_ ?_ (notes_quiet rfl rfl)
    · simpa [Fits, append, hr] using h
    · rw [mode, ← headText_append]
      simp [append, hr]

theorem mirrors_inHeader (hr : r.phase = .header) :
    Mirrors r (r.inHeader x) (Mode.inHeader r.level r.modifier r.headText x) := by
  have htoken : ∀ s : Registers, s.phase = .header → s.level = r.level → s.text = r.text →
      s.modifier = r.modifier → ∀ next m, s.token? next = r.mode.token? m := by
    intro s hs hl ht hm next m
    rw [token?, mode, hs, hr, Mode.token?, headText_getD, hl, ht, hm]
  have hmore : (r.append x).mode =
      .header r.level r.modifier (some (r.headText.getD [] ++ x.text)) := by
    rw [mode, ← headText_append]
    simp [append, hr]
  have hfits : ∀ s : Registers, s.phase = .header → r.level ≤ s.level → s.Fits := by
    intro s hs hl
    rw [Fits, hr] at h
    rw [Fits, hs]
    exact Nat.le_trans h hl
  have hends : ∀ s : Registers, s.phase = .header → ∀ next : Phase, next.endsLine →
      (s.turn next).Fits := by
    intro s hs next hnext
    cases next with
    | lineEnd | done => simp [Fits, turn, clear, hs]
    | _ => cases hnext
  obtain ⟨kind, s⟩ := x
  cases kind with
  | newline =>
    exact .turn (hends r hr .lineEnd rfl) rfl (htoken r hr rfl rfl rfl _ _) (notes_quiet rfl rfl)
  | eof =>
    have hreport : (r.report .unexpectedEndOfFile).phase = .header := hr
    exact .turn (hends _ hreport .done rfl) rfl (htoken _ hreport rfl rfl rfl _ _) ⟨rfl, rfl⟩
  | headerStart =>
    refine mirrors_mark h _ hr (hfits { r with level := r.level + 1 } hr (Nat.le_succ _))
      (notes_quiet rfl rfl) fun hb hm => ?_
    simp [mode, hr, headText, hb]
  | chorusMark =>
    refine mirrors_mark h _ hr (hfits { r with modifier := .chorus } hr (Nat.le_refl _))
      (notes_quiet rfl rfl) fun hb hm => ?_
    simp [mode, hr, headText, hb]
  | bridgeMark =>
    refine mirrors_mark h _ hr (hfits { r with modifier := .bridge } hr (Nat.le_refl _))
      (notes_quiet rfl rfl) fun hb hm => ?_
    simp [mode, hr, headText, hb]
  | _ => exact .stay (hfits (r.append _) hr (Nat.le_refl _)) hmore (notes_quiet rfl rfl)

theorem mirrors_inChord (hr : r.phase = .chord) :
    Mirrors r (r.inChord x) (Mode.inChord r.text x) := by
  have htext := r.text_append x
  obtain ⟨phase, line, diagnostics, buffer, level, modifier, opensLine⟩ := r
  obtain ⟨kind, s⟩ := x
  obtain rfl : phase = .chord := hr
  obtain ⟨rfl, rfl⟩ := h
  cases kind with
  | newline | eof => exact .turn ⟨rfl, rfl, rfl⟩ rfl rfl ⟨rfl, rfl⟩
  | chordEnd => exact .turn ⟨rfl, rfl⟩ rfl rfl (notes_quiet rfl rfl)
  | headerStart | literal =>
    exact .stay ⟨rfl, rfl⟩ (congrArg Mode.chord htext) (notes_quiet rfl rfl)
  | _ => exact .stay ⟨rfl, rfl⟩ (congrArg Mode.chord htext) ⟨rfl, rfl⟩

theorem mirrors_inQuote (hr : r.phase = .quote) :
    Mirrors r (r.inQuote x) (Mode.inQuote r.text x) := by
  have htext := r.text_append x
  obtain ⟨phase, line, diagnostics, buffer, level, modifier, opensLine⟩ := r
  obtain ⟨kind, s⟩ := x
  obtain rfl : phase = .quote := hr
  obtain ⟨rfl, rfl⟩ := h
  cases kind with
  | newline => exact .turn ⟨rfl, rfl, rfl⟩ rfl rfl (notes_quiet rfl rfl)
  | eof => exact .turn ⟨rfl, rfl, rfl⟩ rfl rfl ⟨rfl, rfl⟩
  | _ => exact .stay ⟨rfl, rfl⟩ (congrArg Mode.quote htext) (notes_quiet rfl rfl)

theorem mirrors_inLiteral (hr : r.phase = .literal) :
    Mirrors r (r.inLiteral x) (Mode.inLiteral r.opensLine r.text x) := by
  have htext := r.text_append x
  obtain ⟨phase, line, diagnostics, buffer, level, modifier, opensLine⟩ := r
  obtain ⟨kind, s⟩ := x
  obtain rfl : phase = .literal := hr
  obtain ⟨rfl, rfl⟩ := h
  cases kind with
  | newline => exact .turn ⟨rfl, rfl, rfl⟩ rfl rfl (notes_quiet rfl rfl)
  | eof => exact .turn ⟨rfl, rfl, rfl⟩ rfl rfl ⟨rfl, rfl⟩
  | chordStart => exact .turn ⟨rfl, rfl⟩ rfl rfl (notes_quiet rfl rfl)
  | chordEnd => exact .stay ⟨rfl, rfl⟩ rfl ⟨rfl, rfl⟩
  | headerStart => exact .stay ⟨rfl, rfl⟩ (congrArg (Mode.literal opensLine) htext) ⟨rfl, rfl⟩
  | _ => exact .stay ⟨rfl, rfl⟩ (congrArg (Mode.literal opensLine) htext) (notes_quiet rfl rfl)

theorem change_mirrors (hr : r.phase ≠ .done) :
    ∃ c reaction, r.change x = .ok c ∧ r.mode.react x = .ok reaction ∧ Mirrors r c reaction := by
  cases hp : r.phase with
  | start =>
    have hm : r.mode = .start := by rw [mode, hp]
    refine ⟨_, _, by rw [change, hp], by rw [hm, Mode.react], ?_⟩
    rw [← hm]
    exact mirrors_atLineStart h x (.inl hp)
  | lineEnd =>
    have hm : r.mode = .lineEnd := by rw [mode, hp]
    refine ⟨_, _, by rw [change, hp], by rw [hm, Mode.react], ?_⟩
    rw [← hm]
    exact mirrors_atLineStart h x (.inr hp)
  | header =>
    exact ⟨_, _, by rw [change, hp], by rw [mode, hp, Mode.react], mirrors_inHeader h x hp⟩
  | chord => exact ⟨_, _, by rw [change, hp], by rw [mode, hp, Mode.react], mirrors_inChord h x hp⟩
  | quote => exact ⟨_, _, by rw [change, hp], by rw [mode, hp, Mode.react], mirrors_inQuote h x hp⟩
  | literal =>
    exact ⟨_, _, by rw [change, hp], by rw [mode, hp, Mode.react], mirrors_inLiteral h x hp⟩
  | done => exact absurd hp hr

end Constructs

/-! ## Feeding -/

theorem feed_done {r : Registers} (hr : r.phase = .done) (x : Lexeme) :
    r.feed x = (r, .error .pastEnd) := by
  rw [feed, change, hr]

theorem Notes.turn {r s : Registers} {p : Option Problem} (notes : r.Notes p s) (next : Phase) :
    r.Notes p (s.turn next) := by
  have hkept : (s.turn next).line = s.line ∧ (s.turn next).diagnostics = s.diagnostics := by
    rw [Registers.turn, clear]
    cases s.phase <;> exact ⟨rfl, rfl⟩
  exact ⟨hkept.1.trans notes.line, hkept.2.trans notes.diagnostics⟩

/-- A machine is fed as its reader is, and fits again. -/
structure Fed (r : Registers) (x : Lexeme) : Prop where
  fits : (r.feed x).1.Fits
  result : (r.reader.answer x).result = (r.feed x).2
  reader : (r.reader.answer x).reader = (r.feed x).1.reader
  diagnostics : (r.feed x).1.diagnostics =
    r.diagnostics ++ (r.reader.answer x).diagnostic.toList

theorem fed_done {r : Registers} (h : r.Fits) (hr : r.phase = .done) (x : Lexeme) : r.Fed x := by
  have hfeed := feed_done hr x
  have hanswer : r.reader.answer x = ⟨.error .pastEnd, r.reader, none⟩ := by
    have hm : r.reader.mode = .done := by rw [reader, mode, hr]
    rw [Reader.answer, Reader.feed, hm]
    rfl
  refine ⟨?_, ?_, ?_, ?_⟩
  · rwa [hfeed]
  · rw [hanswer, hfeed]
  · rw [hanswer, hfeed]
  · rw [hanswer, hfeed]
    exact (List.append_nil _).symm

/-- A lexeme that is taken: `t` are the registers before its line is counted. -/
structure Takes (r : Registers) (x : Lexeme) (t : Registers) (p : Option Problem)
    (token : Option Token) : Prop where
  fed : r.feed x = (t.countLine x, .ok token)
  answered : r.reader.answer x = ⟨.ok token, ⟨t.mode, r.reader.lineAfter x⟩, p.map (⟨·, r.line⟩)⟩
  fits : t.Fits
  notes : r.Notes p t
  ended : ∀ y, token = some y → ∃ m, r.mode.token? m = some y

theorem exists_takes {r : Registers} (h : r.Fits) (hr : r.phase ≠ .done) (x : Lexeme) :
    ∃ t p token, r.Takes x t p token := by
  obtain ⟨c, reaction, hchange, hreact, hmirrors⟩ := change_mirrors h x hr
  have hfeed : r.reader.feed x = .ok (r.reader.follow x reaction) := by
    rw [Reader.feed]
    exact congrArg (Except.map (r.reader.follow x)) hreact
  cases hmirrors with
  | @stay s m p hs hm notes =>
    refine ⟨s, p, none, ⟨by rw [feed, hchange], ?_, hs, notes, ?_⟩⟩
    · rw [Reader.answer, hfeed, hm]
      rfl
    · rintro y ⟨⟩
  | @turn s m p next hs hm ht notes =>
    refine ⟨s.turn next, p, s.token? next, ⟨by rw [feed, hchange], ?_, hs, notes.turn next, ?_⟩⟩
    · rw [Reader.answer, hfeed, hm, ht]
      rfl
    · intro y hy
      exact ⟨m, by rw [← ht, hy]⟩

theorem feed_mirrors {r : Registers} (h : r.Fits) (x : Lexeme) : r.Fed x := by
  by_cases hr : r.phase = .done
  · exact fed_done h hr x
  obtain ⟨t, p, token, hfed, hanswered, hfits, notes, -⟩ := exists_takes h hr x
  have hreader : (t.countLine x).reader = ⟨t.mode, r.reader.lineAfter x⟩ := by
    rw [reader, countLine, notes.line]
    rfl
  refine ⟨?_, ?_, ?_, ?_⟩
  · rw [hfed]
    exact hfits
  · rw [hanswered, hfed]
  · rw [hanswered, hfed, hreader]
  · rw [hanswered, hfed]
    exact notes.diagnostics

/-! ## Runs -/

section Runs
variable {r : Registers} (h : r.Fits) (xs : List Lexeme)
include h

theorem fits_after : (r.after xs).Fits := by
  induction xs generalizing r with
  | nil => exact h
  | cons x xs ih => exact ih (feed_mirrors h x).fits

theorem reader_after : r.reader.after xs = (r.after xs).reader := by
  induction xs generalizing r with
  | nil => rfl
  | cons x xs ih =>
    have hx := feed_mirrors h x
    show (r.reader.answer x).reader.after xs = _
    rw [hx.reader]
    exact ih hx.fits

theorem results_eq : r.results xs = (r.reader.answers xs).map (·.result) := by
  induction xs generalizing r with
  | nil => rfl
  | cons x xs ih =>
    have hx := feed_mirrors h x
    rw [results, Reader.answers, List.map_cons, hx.result, hx.reader, ih hx.fits]

theorem diagnostics_after : (r.after xs).diagnostics =
    r.diagnostics ++ (r.reader.answers xs).flatMap (·.diagnostic.toList) := by
  induction xs generalizing r with
  | nil => exact (List.append_nil _).symm
  | cons x xs ih =>
    have hx := feed_mirrors h x
    have hrest : (r.after (x :: xs)).diagnostics = ((r.feed x).1.after xs).diagnostics := rfl
    rw [hrest, ih hx.fits, hx.diagnostics, Reader.answers, List.flatMap_cons, hx.reader,
      List.append_assoc]

end Runs

end Registers
end ChordSheet
