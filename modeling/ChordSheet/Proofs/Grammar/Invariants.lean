import Mathlib.Data.List.Forall2
import ChordSheet.Proofs.Grammar.Registers

/-! What holds of a machine with registers after any lexemes, whatever their kinds and texts.

* `Token.WellMade`: what no token is without.
* `Registers.Sound`: the registers fit, and diagnostics come line by line.
* `Registers.sound_feed`, `Registers.sound_after`: one lexeme keeps that, and so does a run.
* `Registers.line_after`: the line breaks that have been taken are counted.
* `Registers.wellMade_results`: all tokens of a run are well made.
* `Registers.run_invariants`: all of it, for the machine at its start and so for the reader.
* `Registers.alike_behind_lines`: nothing that whole lines leave in the registers is seen again. -/
namespace ChordSheet
set_option autoImplicit false

/-! ## Tokens -/

/-- A headline has a level, a literal a text, and an entry a known keyword and a value. -/
def Token.WellMade : Token → Prop
  | headline h => 1 ≤ h.level
  | literal s => s ≠ []
  | entry e => (∃ k : Keyword, e.keyword = k.name) ∧ e.content ≠ []
  | _ => True

namespace Mode

def phase : Mode → Phase
  | start => .start
  | lineEnd => .lineEnd
  | header .. => .header
  | chord _ => .chord
  | quote _ => .quote
  | literal .. => .literal
  | done => .done

theorem wellMade_literalToken? {wholeLine : Bool} {s : Text} {t : Token}
    (h : literalToken? wholeLine s = some t) : t.WellMade := by
  rw [literalToken?] at h
  by_cases hs : s.isEmpty
  · rw [if_pos hs] at h
    cases h
  rw [if_neg hs] at h
  cases hread : (if wholeLine then Entry.read? s else none) with
  | none =>
    rw [hread] at h
    cases h
    simpa [Token.WellMade] using hs
  | some e =>
    rw [hread] at h
    cases h
    cases wholeLine with
    | false => cases hread
    | true =>
      obtain ⟨rest, k, -, -, hk, hv⟩ := (Entry.read?_eq_some_iff s e).mp hread
      exact ⟨⟨k, hk⟩, ((Entry.value?_eq_some_iff rest e.content).mp hv).2.1⟩

theorem wellMade_token? {m next : Mode} {t : Token}
    (hm : ∀ level modifier text, m = .header level modifier text → 1 ≤ level)
    (h : m.token? next = some t) : t.WellMade := by
  cases m with
  | start | done => cases h
  | lineEnd | chord s | quote s =>
    cases h
    exact trivial
  | header level modifier text =>
    cases h
    exact hm level modifier text rfl
  | literal opensLine s => exact wellMade_literalToken? h

end Mode

namespace Registers

theorem Fits.level_of_mode {r : Registers} (h : r.Fits) {level : Nat} {modifier : Modifier}
    {text : Option Text} (hm : r.mode = .header level modifier text) : 1 ≤ level := by
  rw [mode] at hm
  rw [Fits] at h
  cases hp : r.phase with
  | header =>
    rw [hp] at hm h
    cases hm
    exact h
  | _ =>
    rw [hp] at hm
    cases hm

/-! ## One lexeme -/

/-- The registers fit, and diagnostics come line by line, up to the line that is being read. -/
structure Sound (r : Registers) : Prop where
  fits : r.Fits
  ordered : r.diagnostics.Pairwise (fun d e => d.line ≤ e.line)
  reached : ∀ d ∈ r.diagnostics, d.line ≤ r.line

theorem sound_start : ({} : Registers).Sound := ⟨⟨rfl, rfl, rfl⟩, .nil, nofun⟩

theorem le_line_countLine (r : Registers) (x : Lexeme) : r.line ≤ (r.countLine x).line := by
  rw [countLine]
  dsimp only
  split_ifs <;> omega

theorem Takes.token_wellMade {r t : Registers} {x : Lexeme} {p : Option Problem}
    {token : Option Token} (h : r.Takes x t p token) (hr : r.Fits) {y : Token}
    (hy : token = some y) : y.WellMade := by
  obtain ⟨m, hm⟩ := h.ended y hy
  exact Mode.wellMade_token? (fun _ _ _ => hr.level_of_mode) hm

/-- What is noted stands on the line that is being read, so it comes last. -/
theorem Sound.of_notes {r t : Registers} {p : Option Problem} (h : r.Sound) (hfits : t.Fits)
    (notes : r.Notes p t) : t.Sound := by
  have hnew : ∀ d ∈ (p.map (⟨·, r.line⟩ : Problem → Diagnostic)).toList, d.line = r.line := by
    cases p with
    | none => nofun
    | some p =>
      intro d hd
      rw [List.mem_singleton.mp hd]
  refine ⟨hfits, ?_, fun d hd => ?_⟩
  · rw [notes.diagnostics, List.pairwise_append]
    refine ⟨h.ordered, ?_, fun d hd e he => ?_⟩
    · cases p with
      | none => exact .nil
      | some p => exact List.pairwise_singleton _ _
    · rw [hnew e he]
      exact h.reached d hd
  · rw [notes.diagnostics, List.mem_append] at hd
    rw [notes.line]
    rcases hd with hd | hd
    · exact h.reached d hd
    · exact Nat.le_of_eq (hnew d hd)

theorem Sound.countLine {r : Registers} (h : r.Sound) (x : Lexeme) : (r.countLine x).Sound :=
  ⟨h.fits, h.ordered, fun d hd => Nat.le_trans (h.reached d hd) (le_line_countLine r x)⟩

theorem sound_feed {r : Registers} (h : r.Sound) (x : Lexeme) : (r.feed x).1.Sound := by
  by_cases hr : r.phase = .done
  · rwa [feed_done hr]
  obtain ⟨t, p, token, hfed, -, hfits, notes, -⟩ := exists_takes h.fits hr x
  rw [hfed]
  exact (h.of_notes hfits notes).countLine x

/-! ## Runs -/

theorem sound_after {r : Registers} (h : r.Sound) (xs : List Lexeme) : (r.after xs).Sound := by
  induction xs generalizing r with
  | nil => exact h
  | cons x xs ih => exact ih (sound_feed h x)

theorem after_done {r : Registers} (hr : r.phase = .done) (xs : List Lexeme) :
    r.after xs = r ∧ ∀ a ∈ r.results xs, a = .error .pastEnd := by
  induction xs with
  | nil => exact ⟨rfl, List.forall_mem_nil _⟩
  | cons x xs ih =>
    have hfeed := feed_done hr x
    refine ⟨?_, ?_⟩
    · show (r.feed x).1.after xs = r
      rw [hfeed]
      exact ih.1
    · rw [results, hfeed]
      exact List.forall_mem_cons.mpr ⟨rfl, ih.2⟩

theorem line_after {r : Registers} (h : r.Fits) (xs : List Lexeme) :
    (r.after xs).line = r.line + (r.taken xs).countP (fun x => x.kind == .newline) := by
  induction xs generalizing r with
  | nil => rfl
  | cons x xs ih =>
    have hafter : (r.after (x :: xs)).line = ((r.feed x).1.after xs).line := rfl
    rw [hafter, ih (feed_mirrors h x).fits, taken]
    by_cases hr : r.phase = .done
    · rw [feed_done hr]
    obtain ⟨t, p, token, hfed, -, -, notes, -⟩ := exists_takes h hr x
    rw [hfed]
    dsimp only
    rw [List.countP_cons, countLine, notes.line]
    by_cases hx : x.kind = .newline
    · simp only [hx, if_true, beq_self_eq_true]
      omega
    · simp [hx]

theorem wellMade_results {r : Registers} (h : r.Fits) (xs : List Lexeme) {t : Token}
    (ht : .ok (some t) ∈ r.results xs) : t.WellMade := by
  induction xs generalizing r with
  | nil => cases ht
  | cons x xs ih =>
    rw [results, List.mem_cons] at ht
    rcases ht with ht | ht
    · by_cases hr : r.phase = .done
      · rw [feed_done hr] at ht
        cases ht
      obtain ⟨s, p, token, htakes⟩ := exists_takes h hr x
      rw [htakes.fed] at ht
      exact htakes.token_wellMade h (Except.ok.inj ht).symm
    · exact ih (feed_mirrors h x).fits ht

theorem Fits.buffer {r : Registers} (h : r.Fits)
    (hr : r.phase = .start ∨ r.phase = .lineEnd ∨ r.phase = .done) : r.buffer = [] := by
  rw [Fits] at h
  rcases hr with hr | hr | hr <;> rw [hr] at h <;> exact h.1

theorem Fits.level {r : Registers} (h : r.Fits) (hr : r.phase = .header) : 1 ≤ r.level := by
  rw [Fits, hr] at h
  exact h

theorem Fits.cleared {r : Registers} (h : r.Fits) (hr : r.phase ≠ .header) :
    r.level = 0 ∧ r.modifier = .none := by
  rw [Fits] at h
  cases hp : r.phase with
  | header => exact absurd hp hr
  | start | lineEnd | done =>
    rw [hp] at h
    exact h.2
  | chord | quote | literal =>
    rw [hp] at h
    exact h

/-- After any lexemes the machine is where the reader is, with its answers and diagnostics. Then
nothing is buffered between constructs, the level and the modifier are those of an open headline or
none, every line break that was taken has been counted, diagnostics have come line by line, and all
tokens are well made; behind the end of the input nothing is taken and nothing changes. -/
theorem run_invariants (xs : List Lexeme) :
    let r := after {} xs
    (r.reader = Reader.after {} xs ∧ results {} xs = (Reader.answers {} xs).map (·.result) ∧
      r.diagnostics = (Reader.answers {} xs).flatMap (·.diagnostic.toList)) ∧
    (r.phase = .start ∨ r.phase = .lineEnd ∨ r.phase = .done → r.buffer = []) ∧
    (r.phase = .header → 1 ≤ r.level) ∧
    (r.phase ≠ .header → r.level = 0 ∧ r.modifier = .none) ∧
    r.line = 1 + (taken {} xs).countP (fun x => x.kind == .newline) ∧
    r.diagnostics.Pairwise (fun d e => d.line ≤ e.line) ∧ (∀ d ∈ r.diagnostics, d.line ≤ r.line) ∧
    (∀ t, .ok (some t) ∈ results {} xs → t.WellMade) ∧
    (r.phase = .done → ∀ ys, r.after ys = r ∧ ∀ a ∈ r.results ys, a = .error .pastEnd) := by
  intro r
  have hstart := sound_start.fits
  have hsound : r.Sound := sound_after sound_start xs
  exact ⟨⟨(reader_after hstart xs).symm, results_eq hstart xs, diagnostics_after hstart xs⟩,
    hsound.fits.buffer, hsound.fits.level, hsound.fits.cleared, line_after hstart xs,
    hsound.ordered, hsound.reached, fun _ => wellMade_results hstart xs, after_done⟩

/-- An empty text stands between two marks, so that the second one does not count. -/
def hiddenMark : List Lexeme := [⟨.headerStart, ['#']⟩, ⟨.literal, []⟩, ⟨.headerStart, ['#']⟩]

/-- A stray bracket, a line break without a text, and the end of the input. -/
def strayBracket : List Lexeme := [⟨.chordEnd, [']']⟩, ⟨.newline, []⟩, ⟨.eof, []⟩]

theorem run_invariants_hidden_mark :
    (after {} hiddenMark).phase = .header ∧ (after {} hiddenMark).buffer = [[], ['#']] ∧
      1 ≤ (after {} hiddenMark).level ∧
      (after {} strayBracket).phase = .done ∧ (after {} strayBracket).buffer = [] ∧
      (after {} strayBracket).line = 2 ∧
      (after {} strayBracket).after hiddenMark = after {} strayBracket := by
  obtain ⟨-, -, hlevel, -⟩ := run_invariants hiddenMark
  obtain ⟨-, hbuffer, -, -, -, -, -, -, hdone⟩ := run_invariants strayBracket
  have hheader : (after {} hiddenMark).phase = .header := rfl
  have hend : (after {} strayBracket).phase = .done := rfl
  exact ⟨hheader, rfl, hlevel hheader, hend, hbuffer (.inr (.inr hend)), rfl,
    (hdone hend hiddenMark).1⟩

/-! ## Behind whole lines -/

theorem phase_mode (r : Registers) : r.mode.phase = r.phase := by
  rw [mode]
  cases r.phase <;> rfl

theorem forall₂_toList {α β : Type} {R : α → β → Prop} {x : Option α} {y : Option β}
    (h : Option.Rel R x y) : List.Forall₂ R x.toList y.toList := by
  cases h with
  | none => exact .nil
  | some h => exact .cons h .nil

/-- Whatever whole lines have been read, what follows them gives the same tokens and faults, the
same phases, and the same problems on lines that differ by a constant. What follows may stop
anywhere, so that this holds lexeme by lexeme. -/
theorem alike_behind_lines {g h : List Lexeme} (hg : WholeLines g) (hh : WholeLines h)
    (k : List Lexeme) :
    let r := after {} g
    let s := after {} h
    s.results k = r.results k ∧ (s.after k).phase = (r.after k).phase ∧
      ∃ ds es, (r.after k).diagnostics = r.diagnostics ++ ds ∧
        (s.after k).diagnostics = s.diagnostics ++ es ∧
        List.Forall₂ (Diagnostic.Alike (s.line - r.line)) ds es := by
  intro r s
  have hr : r.Fits := fits_after sound_start.fits g
  have hs : s.Fits := fits_after sound_start.fits h
  have hrg : Reader.after {} g = r.reader := reader_after sound_start.fits g
  have hsh : Reader.after {} h = s.reader := reader_after sound_start.fits h
  have halike : r.reader.Alike (s.line - r.line) s.reader := by
    have hlines := Reader.alike_after_lines hg hh
    rwa [hrg, hsh] at hlines
  have hanswers := Reader.answers_alike halike k
  refine ⟨?_, ?_, _, _, diagnostics_after hr k, diagnostics_after hs k, ?_⟩
  · have hresults := List.rel_map (fun _ _ hab => hab.result.symm) hanswers
    rw [results_eq hr, results_eq hs]
    exact (List.forall₂_eq_eq_eq ▸ hresults).symm
  · have hmode := (Reader.after_alike halike k).1
    rw [reader_after hr, reader_after hs] at hmode
    rw [← phase_mode, ← phase_mode]
    exact congrArg Mode.phase hmode
  · exact List.rel_flatMap hanswers fun _ _ hab => forall₂_toList hab.diagnostic

end Registers
end ChordSheet
