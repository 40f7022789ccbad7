import ChordSheet.Proofs.Sheet.NormalForm

/-! What is still wrong with a sheet that has been written.

* `Token.problems`: what a token reports on its own, by the characters of its text.
* `Line.Tidy`: a line that reports nothing else; `tidy_write`, `tidy_stripRight_write`.
* `Line.problems_transcript`: tidy lines with an empty one behind them.
* `Sheet.diagnostics_transposed`: the diagnostics of a sheet are those of its tokens. -/
namespace ChordSheet
set_option autoImplicit false

open Segment (lyricsProblem? chordProblem?)

def Token.problems : Token → List Problem
  | .chord x => x.filterMap chordProblem?
  | .literal s => s.filterMap lyricsProblem?
  | .entry e => e.write.filterMap lyricsProblem?
  | _ => []

namespace Line

/-! ## Tidy lines -/

/-- No bracket is missing and none is too many. -/
structure Tidy (l : Text) : Prop where
  problems : problems l = (tokens l).flatMap Token.problems
  closed : endsInChord (content l) = false

theorem tidy_empty : Tidy [] := ⟨rfl, rfl⟩

/-- In headlines and quotes every character is text. -/
theorem tidy_marked {l : Text} (h : l.head? = some '#' ∨ l.head? = some '>') : Tidy l := by
  rcases h with h | h <;> obtain ⟨r, rfl⟩ := List.head?_eq_some_iff.mp h <;> exact ⟨rfl, rfl⟩

/-- Chords and lyrics that are written are the same segments again, all of them closed. -/
theorem segments_write {b : Bool} {ts : List Token} (h : Parts b ts) {s : Text}
    (hs : Avoids lyricStops s) (hb : b = true → s = []) :
    (segments (s ++ write ts)).flatMap Segment.problems =
        s.filterMap lyricsProblem? ++ ts.flatMap Token.problems ∧
      (segments (s ++ write ts)).any Segment.isOpen = false := by
  induction h generalizing s with
  | nil b =>
    rw [write_nil, List.append_nil, segments_lyrics (hs.not_mem (by decide))]
    exact ⟨rfl, rfl⟩
  | @chord b x ts hx h ih =>
    obtain ⟨hp, ho⟩ := ih (s := []) (by simp) (by simp)
    rw [List.nil_append] at hp ho
    rw [write_cons, Token.write, List.cons_append, List.cons_append, List.append_assoc,
      List.singleton_append, segments_closed (hs.not_mem (by decide)) (hx.not_mem (by decide))]
    refine ⟨?_, ho⟩
    rw [List.flatMap_cons, List.flatMap_cons, hp]
    rfl
  | @literal s' ts hne hs' h ih =>
    rw [hb rfl, List.nil_append, write_cons, Token.write]
    exact ih hs' (by simp)

theorem tidy_body {l : Text} {ts : List Token} (hh : l.head? ≠ some '#') (hq : l.head? ≠ some '>')
    (hb : l.head? ≠ some ']') (ht : tokens l = ts)
    (hp : (segments l).flatMap Segment.problems = ts.flatMap Token.problems)
    (ho : (segments l).any Segment.isOpen = false) : Tidy l := by
  cases l with
  | nil => exact tidy_empty
  | cons c r =>
    have hh' : c ≠ '#' := by simpa using hh
    have hq' : c ≠ '>' := by simpa using hq
    refine ⟨?_, ?_⟩
    · rw [problems_of_head hb, contentProblems_body hh' hq', ht, hp]
    · rw [content_of_head hb, endsInChord_body hh' hq', ho]

theorem tidy_parts {ts : List Token} (hp : Parts true ts) (ho : Opens ts) : Tidy (write ts) := by
  obtain ⟨hh, hq, hb⟩ := head?_write hp ho
  obtain ⟨hproblems, hopen⟩ := segments_write hp (s := []) (by simp) (fun _ => rfl)
  exact tidy_body hh hq hb (tokens_write_body hp ho) hproblems hopen

theorem tidy_entry {e : Entry} (he : e.Proper) : Tidy e.write := by
  have hsegments := segments_lyrics ((avoids_write_proper he).not_mem (by decide))
  have htokens := tokens_write_entry he
  obtain ⟨k, hk⟩ := he.known
  obtain ⟨word, content⟩ := e
  obtain rfl : word = k.name := hk
  refine tidy_body (head?_write_keyword k content (by decide))
    (head?_write_keyword k content (by decide)) (head?_write_keyword k content (by decide)) htokens
    ?_ ?_
  · rw [hsegments]
    rfl
  · rw [hsegments]
    rfl

theorem head?_write_headline {h : Headline} (hl : 1 ≤ h.level) :
    (Token.headline h).write.head? = some '#' := by
  obtain ⟨k, hk⟩ := Nat.exists_eq_add_of_le' hl
  rw [Token.write, hk]
  rfl

theorem tidy_write {ts : List Token} (h : Readable ts) : Tidy (write ts) := by
  cases h with
  | headline hl hs hn =>
    rw [write_cons, write_nil, List.append_nil]
    exact tidy_marked (.inl (head?_write_headline hl))
  | quote hs hn => exact tidy_marked (.inr rfl)
  | entry he =>
    rw [write_cons, write_nil, List.append_nil]
    exact tidy_entry he
  | body hp ho => exact tidy_parts hp ho

/-- A line whose text has lost the blanks at its end is still tidy. -/
theorem tidy_stripRight_write {ts : List Token} (h : Readable ts) :
    Tidy (stripRight (write ts)) := by
  by_cases hn : stripRight (write ts) = []
  · rw [hn]
    exact tidy_empty
  have hhead := head?_stripRight hn
  cases h with
  | headline hl hs ha =>
    rw [write_cons, write_nil, List.append_nil] at hhead ⊢
    exact tidy_marked (.inl (hhead.trans (head?_write_headline hl)))
  | quote hs ha => exact tidy_marked (.inr hhead)
  | entry he =>
    rw [write_cons, write_nil, List.append_nil, Token.write,
      stripRight_write_entry he.flush he.filled]
    exact tidy_entry he
  | body hp ho =>
    rw [← write_trim hp]
    exact tidy_parts (parts_trim hp) (opens_trim hp ho)

/-! ## Problems of readable lines -/

/-- The problems that do not come from brackets that are missing or too many. -/
def lasting : List Problem := [.nestedChord, .invalidChordCharacter, .unexpectedHeaderStart]

theorem mem_lasting_of_chord {c : Char} {p : Problem} (h : chordProblem? c = some p) :
    p ∈ lasting := by
  unfold chordProblem? at h
  split at h <;> cases h <;> decide

theorem mem_lasting_of_lyrics {c : Char} (hc : c ≠ ']') {p : Problem}
    (h : lyricsProblem? c = some p) : p ∈ lasting := by
  unfold lyricsProblem? at h
  split at h
  · exact absurd rfl hc
  · cases h
    decide
  · cases h

theorem lasting_chord (x : Text) : ∀ p ∈ (Token.chord x).problems, p ∈ lasting := by
  intro p hp
  obtain ⟨c, -, hc⟩ := List.mem_filterMap.mp hp
  exact mem_lasting_of_chord hc

theorem lasting_lyrics {s : Text} (hs : Avoids lyricStops s) :
    ∀ p ∈ s.filterMap lyricsProblem?, p ∈ lasting := by
  intro p hp
  obtain ⟨c, hmem, hc⟩ := List.mem_filterMap.mp hp
  exact mem_lasting_of_lyrics (fun h => hs c hmem (by rw [h]; decide)) hc

theorem lasting_parts {b : Bool} {ts : List Token} (h : Parts b ts) :
    ∀ p ∈ ts.flatMap Token.problems, p ∈ lasting := by
  induction h with
  | nil b => exact nofun
  | @chord b x ts hx h ih =>
    rw [List.flatMap_cons, List.forall_mem_append]
    exact ⟨lasting_chord x, ih⟩
  | literal hne hs h ih =>
    rw [List.flatMap_cons, List.forall_mem_append]
    exact ⟨lasting_lyrics hs, ih⟩

theorem lasting_readable {ts : List Token} (h : Readable ts) :
    ∀ p ∈ ts.flatMap Token.problems, p ∈ lasting := by
  cases h with
  | headline => exact nofun
  | quote => exact nofun
  | entry he =>
    rw [List.flatMap_singleton]
    exact lasting_lyrics (avoids_write_proper he)
  | body hp => exact lasting_parts hp

/-! ## Lines that follow each other -/

/-- The line break behind the last line leaves an empty one, with which the input may end. -/
theorem problems_transcript {ls : List Text} (h : ∀ l ∈ ls, Tidy l) (number : Nat) :
    (transcript number (ls ++ [[]])).diagnostics.map (·.problem) =
      (transcript number (ls ++ [[]])).tokens.flatMap Token.problems := by
  induction ls generalizing number with
  | nil => rfl
  | cons l ls ih =>
    obtain ⟨hl, hls⟩ := List.forall_mem_cons.mp h
    obtain ⟨k, ks, hks⟩ := List.exists_cons_of_ne_nil (List.append_ne_nil_of_right_ne_nil ls
      (List.cons_ne_nil [] []))
    have hd : (diagnostics number false l).map (·.problem) = problems l := by
      rw [diagnostics, endProblem?, hl.closed, List.map_map]
      simp [Function.comp_def]
    have ht := ih hls (number + 1)
    rw [hks] at ht
    have hcons : transcript number (l :: k :: ks) =
        ⟨tokens l ++ .newline :: (transcript (number + 1) (k :: ks)).tokens,
          diagnostics number false l ++ (transcript (number + 1) (k :: ks)).diagnostics⟩ := rfl
    rw [List.cons_append, hks, hcons, List.map_append, hd, ht, hl.problems, List.flatMap_append]
    rfl

end Line

namespace Sheet

/-! ## Sheets -/

theorem tidy_of_mem_trimmed {ls : List (List Token)} (h : ∀ l ∈ ls, Readable l) :
    ∀ l ∈ trimmed ls, Line.Tidy l := by
  intro l hl
  rcases mem_trimEnd hl with hl | ⟨s, hs, rfl⟩
  · obtain ⟨k, hk, rfl⟩ := List.mem_map.mp hl
    exact Line.tidy_write (h k hk)
  · obtain ⟨k, hk, rfl⟩ := List.mem_map.mp hs
    exact Line.tidy_stripRight_write (h k hk)

theorem problems_intercalate (ls : List (List Token)) :
    ([.newline].intercalate ls).flatMap Token.problems =
      ls.flatMap (·.flatMap Token.problems) := by
  induction ls with
  | nil => rfl
  | cons l ls ih =>
    cases ls with
    | nil => simp
    | cons k ls =>
      rw [List.intercalate_cons_cons, List.flatMap_append, List.flatMap_append, ih,
        List.append_assoc]
      rfl

/-- The lines of a sheet report what their tokens do, and nothing is left open at its end. -/
theorem problems_print {ls : List (List Token)} (h : ∀ l ∈ ls, Readable l) :
    ∃ t, tokenize (print ls) = .ok t ∧ t.tokens = [.newline].intercalate (linesOf (print ls)) ∧
      t.diagnostics.map (·.problem) = t.tokens.flatMap Token.problems := by
  have hs := readable_squeeze h true
  have htidy : ∀ l ∈ trimmed (squeeze true ls), Line.Tidy l := tidy_of_mem_trimmed hs
  refine ⟨_, tokenize_eq_transcript _, Line.transcript_tokens _ _, ?_⟩
  rw [print, splitOn_finish (avoids_breaks_trimmed hs)]
  by_cases hn : trimmed (squeeze true ls) = []
  · have hempty : ∀ l ∈ [[]], Line.Tidy l := List.forall_mem_singleton.mpr Line.tidy_empty
    rw [if_pos hn]
    exact Line.problems_transcript hempty 1
  · rw [if_neg hn]
    exact Line.problems_transcript htidy 1

/-- Of the transposed sheet of any text every problem is reported by a chord, by lyrics or by an
entry of its own, and no bracket is missing or too many. -/
theorem diagnostics_transposed (s : Text) (n : Int) (naming : Naming) :
    ∃ u t, transposeAndConvert s n none (sheetFormat naming) = .ok u ∧ tokenize u = .ok t ∧
      t.diagnostics.map (·.problem) = t.tokens.flatMap Token.problems ∧
      ∀ d ∈ t.diagnostics, d.problem ∈
        [.nestedChord, .invalidChordCharacter, .unexpectedHeaderStart] := by
  have hpage := readable_page (sound_metadataIn (readable_linesOf s)) naming
    (readable_rewritten s n naming)
  obtain ⟨t, ht, htokens, hproblems⟩ := problems_print hpage
  refine ⟨_, t, transposeAndConvert_eq s n naming, ht, hproblems, fun d hd => ?_⟩
  have hmem : d.problem ∈ t.diagnostics.map (·.problem) := List.mem_map_of_mem hd
  rw [hproblems, htokens, problems_intercalate] at hmem
  obtain ⟨l, hl, hd⟩ := List.mem_flatMap.mp hmem
  exact Line.lasting_readable (readable_linesOf _ l hl) _ hd

example : ((transposeAndConvert "] la #1 ][C[!".toList 0 none (sheetFormat .b)).bind tokenize).map
      (·.diagnostics) =
    .ok [⟨.unexpectedHeaderStart, 1⟩, ⟨.nestedChord, 1⟩, ⟨.invalidChordCharacter, 1⟩] := by
  rfl

end Sheet
end ChordSheet
