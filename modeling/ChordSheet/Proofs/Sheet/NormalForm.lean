import ChordSheet.Proofs.Chord.Rereading
import ChordSheet.Proofs.Document.Total
import ChordSheet.Proofs.Sheet.Rereading

/-! Sheets in normal form: what is printed is printed again, and its chords are read again.

* `Sheet.transposed`: the sheet of a text, with its chords moved; `transposeAndConvert_eq`.
* `Sheet.normalize_transpose`: in the naming `B` normalizing and transposing do not interfere.
* `Sheet.normalize_twice_iff`: the texts that are normalized once and for all in the naming `H`.
* `Sheet.chords_transposed`: the chords of a transposed sheet. -/
namespace ChordSheet
set_option autoImplicit false

namespace Sheet

open Line (rewrite Tame)

def sheetFormat (naming : Naming) : Formatting := ⟨Format.sheet.name, naming⟩

/-! ## Sheets of texts -/

theorem tame_symbol (source target : Naming) (n : Int) :
    Tame (symbol source target (Chord.moved n)) := fun _ hx =>
  Chord.avoids_symbol hx source target n

/-- The sheet of a text, with its chords moved. -/
def transposed (s : Text) (n : Int) (naming : Naming) : Text :=
  print (page (metadataIn (linesOf s)) naming
    ((linesOf s).map (rewrite (symbol (metadataIn (linesOf s)).naming naming (Chord.moved n)))))

theorem transposeAndConvert_eq (s : Text) (n : Int) (naming : Naming) :
    transposeAndConvert s n none (sheetFormat naming) = .ok (transposed s n naming) := by
  have hread := readable_linesOf s
  have hmeta := Document.metadata_eq hread (metadataIn (linesOf s)).naming
  have hformed := Document.formed_ofTokens (metadataIn (linesOf s)).naming
    ([.newline].intercalate (linesOf s))
  have hwrite := write_eq_print (f := Chord.moved n)
    (readable_headerLines (sound_metadataIn hread) naming) (linesOf_ne_nil s) hread
    (tame_symbol (metadataIn (linesOf s)).naming naming n)
  rw [transposed, ← hwrite]
  exact transposeAndConvert_of_ofText (Document.ofText_eq s) hmeta none .sheet naming hformed n

theorem convert_eq (s : Text) (naming : Naming) :
    convert s none (sheetFormat naming) = .ok (transposed s 0 naming) := by
  rw [← transposeAndConvert_eq]
  exact (transposeAndConvert_zero s none .sheet naming).symm

/-! ## Sheets of sheets -/

section Again
variable (s : Text) (n : Int) (naming : Naming)

theorem readable_rewritten :
    ∀ l ∈ (linesOf s).map
      (rewrite (symbol (metadataIn (linesOf s)).naming naming (Chord.moved n))), Readable l :=
  Line.readable_map_rewrite (tame_symbol _ naming n) (readable_linesOf s)

/-- A sheet declares the naming that it is written in. -/
theorem naming_transposed : (metadataIn (linesOf (transposed s n naming))).naming = naming :=
  naming_print naming (sound_metadataIn (readable_linesOf s)) (readable_rewritten s n naming)

theorem chordTexts_transposed :
    chordTexts (linesOf (transposed s n naming)) = (chordTexts (linesOf s)).map
      (symbol (metadataIn (linesOf s)).naming naming (Chord.moved n)) := by
  rw [← chordTexts_rewrite]
  exact (found_print naming (sound_metadataIn (readable_linesOf s))
    (readable_rewritten s n naming)).2.2

/-- The chords of a sheet are written again where they stand, and all else stays. -/
theorem transposed_again (k : Int) :
    transposed (transposed s n naming) k naming =
      print (page (metadataIn (linesOf s)) naming ((linesOf s).map (rewrite
        (symbol naming naming (Chord.moved k) ∘
          symbol (metadataIn (linesOf s)).naming naming (Chord.moved n))))) := by
  have hls : ((linesOf s).map (rewrite (symbol (metadataIn (linesOf s)).naming naming
      (Chord.moved n)))).map (rewrite (symbol naming naming (Chord.moved k))) =
      (linesOf s).map (rewrite (symbol naming naming (Chord.moved k) ∘
        symbol (metadataIn (linesOf s)).naming naming (Chord.moved n))) := by
    rw [List.map_map]
    exact List.map_congr_left fun l _ => Line.rewrite_rewrite _ _ l
  rw [← hls, ← print_again (sound_metadataIn (readable_linesOf s)) naming
    (readable_rewritten s n naming) (tame_symbol naming naming k), ← transposed,
    transposed, naming_transposed]

end Again

/-! ## The naming B -/

theorem symbol_normalized (source : Naming) (n : Int) :
    symbol .b .b (Chord.moved n) ∘ symbol source .b (Chord.moved 0) =
      symbol source .b (Chord.moved n) := by
  funext x
  have hread : Chord.read .b ((Chord.read source x).write .b) = Chord.read source x := by
    rw [Chord.read_write (Chord.formed_read source x),
      Chord.reread_of_survives (Chord.survives_read source x)]
  rw [Function.comp_apply, symbol, symbol, Chord.moved_zero, hread]
  rfl

theorem normalized_symbol (source : Naming) (n : Int) :
    symbol .b .b (Chord.moved 0) ∘ symbol source .b (Chord.moved n) =
      symbol source .b (Chord.moved n) := by
  funext x
  have hf := Chord.formed_moved (Chord.formed_read source x) n
  rw [Function.comp_apply, symbol, Chord.moved_zero, symbol, Chord.read_write hf,
    Chord.write_reread hf]

/-- Normalizing a text before or after its chords are moved changes nothing. -/
theorem normalize_transpose (s : Text) (n : Int) :
    ∃ u v, convert s none (sheetFormat .b) = .ok u ∧
      transposeAndConvert s n none (sheetFormat .b) = .ok v ∧
      transposeAndConvert u n none (sheetFormat .b) = .ok v ∧
      convert v none (sheetFormat .b) = .ok v ∧
      convert u none (sheetFormat .b) = .ok u := by
  have hbefore : ∀ k, transposed (transposed s 0 .b) k .b = transposed s k .b := by
    intro k
    rw [transposed_again, symbol_normalized, transposed]
  have hafter : transposed (transposed s n .b) 0 .b = transposed s n .b := by
    rw [transposed_again, normalized_symbol, transposed]
  refine ⟨transposed s 0 .b, transposed s n .b, convert_eq s .b, transposeAndConvert_eq s n .b,
    ?_, ?_, ?_⟩
  · rw [transposeAndConvert_eq, hbefore]
  · rw [convert_eq, hafter]
  · rw [convert_eq, hbefore]

/-! ## The naming H -/

theorem symbol_again (source : Naming) (x : Text) :
    symbol .h .h (Chord.moved 0) (symbol source .h (Chord.moved 0) x) =
        symbol source .h (Chord.moved 0) x ↔
      ((Chord.read source x).root = some ⟨['B'], ['b']⟩ →
        ∀ a q, (Chord.read source x).quality = a :: q → Chord.isAccidental a = false) := by
  rw [← Chord.write_reread_iff, symbol, symbol, Chord.moved_zero, Chord.moved_zero,
    Chord.read_write (Chord.formed_read source x)]

/-- A sheet in the naming `H` stays as it is just when all of its chord symbols do. -/
theorem transposed_twice_iff (s : Text) :
    transposed (transposed s 0 .h) 0 .h = transposed s 0 .h ↔ ∀ x ∈ chordTexts (linesOf s),
      symbol .h .h (Chord.moved 0) (symbol (metadataIn (linesOf s)).naming .h (Chord.moved 0) x) =
        symbol (metadataIn (linesOf s)).naming .h (Chord.moved 0) x := by
  constructor
  · intro h
    have htexts := chordTexts_transposed (transposed s 0 .h) 0 .h
    rw [h, chordTexts_transposed, naming_transposed, List.map_map, List.map_inj_left] at htexts
    exact fun x hx => (htexts x hx).symm
  · intro h
    rw [transposed_again, transposed]
    congr 2
    exact rewrite_congr h

/-- Normalizing once is enough just when no B flat has a quality that starts with an accidental. -/
theorem normalize_twice_iff (s : Text) :
    ∃ d u v, Document.ofText s = .ok d ∧ convert s none (sheetFormat .h) = .ok u ∧
      convert u none (sheetFormat .h) = .ok v ∧
      (v = u ↔ ∀ c ∈ d.chords, c.root = some ⟨['B'], ['b']⟩ →
        ∀ a q, c.quality = a :: q → Chord.isAccidental a = false) := by
  obtain ⟨d, hd, hchords⟩ := Document.exists_ofText s
  refine ⟨d, _, _, hd, convert_eq s .h, convert_eq _ .h, ?_⟩
  rw [transposed_twice_iff, hchords, List.forall_mem_map]
  simp only [symbol_again]

/-- The sheet of a B flat with a sharp or a flat in its quality changes when it is read again. -/
theorem normalize_twice_changes :
    convert "[Bbb]".toList none (sheetFormat .h) = .ok "B-Notation: H\n\n[Bb]\n".toList ∧
      convert "B-Notation: H\n\n[Bb]\n".toList none (sheetFormat .h) =
        .ok "B-Notation: H\n\n[B]\n".toList := by
  constructor <;> rfl

/-! ## Chords -/

/-- The chords of a transposed sheet are those of the text, moved, written and read again; they are
the moved chords themselves just when no quality runs into its root. -/
theorem chords_transposed (s : Text) (n : Int) (naming : Naming) :
    ∃ d cs u e, Document.ofText s = .ok d ∧ d.chords.mapM (Chord.shift n) = .ok cs ∧
      transposeAndConvert s n none (sheetFormat naming) = .ok u ∧ Document.ofText u = .ok e ∧
      e.chords = cs.map (fun c => Chord.read naming (c.write naming)) ∧
      (e.chords = cs ↔ ∀ c ∈ cs, c.Survives naming) := by
  obtain ⟨d, hd, hchords⟩ := Document.exists_ofText s
  obtain ⟨e, he, hagain⟩ := Document.exists_ofText (transposed s n naming)
  rw [naming_transposed, chordTexts_transposed, List.map_map] at hagain
  have hformed : ∀ c ∈ d.chords, c.Formed := by
    rw [hchords, List.forall_mem_map]
    exact fun x _ => Chord.formed_read _ x
  have hcs := mapM_ok fun c hc => Chord.shift_formed (hformed c hc) n
  have hreread : e.chords =
      (d.chords.map (Chord.moved n)).map fun c => Chord.read naming (c.write naming) := by
    rw [hagain, hchords, List.map_map, List.map_map]
    rfl
  refine ⟨d, _, _, e, hd, hcs, transposeAndConvert_eq s n naming, he, hreread, ?_⟩
  have hself : ∀ c ∈ d.chords.map (Chord.moved n),
      Chord.read naming (c.write naming) = c ↔ c.Survives naming := by
    rw [List.forall_mem_map]
    intro c hc
    rw [Chord.read_write (Chord.formed_moved (hformed c hc) n), Chord.reread_eq_iff]
  rw [hreread]
  constructor
  · intro h c hc
    have hmap := h.trans (List.map_id _).symm
    exact (hself c hc).mp (List.map_inj_left.mp hmap c hc)
  · intro h
    exact (List.map_congr_left fun c hc => (hself c hc).mpr (h c hc)).trans (List.map_id _)

/-- A quality that starts with a sharp becomes part of a root that has lost its own. -/
theorem chords_run_together :
    (Document.ofText "[C##]".toList).map Document.chords =
        .ok [⟨some ⟨['C'], ['#']⟩, ['#'], none⟩] ∧
      transposeAndConvert "[C##]".toList 1 none (sheetFormat .b) = .ok "[D#]\n".toList ∧
      (Document.ofText "[D#]\n".toList).map Document.chords =
        .ok [⟨some ⟨['D'], ['#']⟩, [], none⟩] ∧
      Chord.shift 1 ⟨some ⟨['C'], ['#']⟩, ['#'], none⟩ = .ok ⟨some ⟨['D'], []⟩, ['#'], none⟩ := by
  refine ⟨?_, ?_, ?_, ?_⟩ <;> rfl

end Sheet
end ChordSheet
