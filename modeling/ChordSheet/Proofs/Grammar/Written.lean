import ChordSheet.Proofs.Grammar.Line
import ChordSheet.Proofs.Metadata.First

/-! Lines of tokens, and their way to text and back.

* `Line.write`: the text of a line.
* `Parts`: chords and lyrics in turn; `Readable`: the lines of tokens that reading can give.
* `readable_tokens`: every line reads as a readable one.
* `tokens_write`: a readable line that is written reads as itself. -/
namespace ChordSheet
set_option autoImplicit false

/-! ## Writing -/

/-- A title without a text is a hash alone. -/
def Token.write : Token → Text
  | .headline h => List.replicate h.level '#' ++ h.modifier.mark ++
      if h.level = 1 ∧ h.text = [] then [] else ' ' :: h.text
  | .chord x => '[' :: x ++ [']']
  | .literal s => s
  | .quote s => '>' :: ' ' :: s
  | .entry e => e.write
  | .newline => ['\n']

def Line.write (ts : List Token) : Text := ts.flatMap Token.write

@[simp] theorem Line.write_nil : Line.write [] = [] := rfl

@[simp] theorem Line.write_cons (t : Token) (ts : List Token) :
    Line.write (t :: ts) = t.write ++ Line.write ts := List.flatMap_cons

/-! ## Readable lines -/

/-- Lyrics may come next if there are none just before. -/
inductive Parts : Bool → List Token → Prop
  | nil (b : Bool) : Parts b []
  | chord (b : Bool) {x : Text} {ts : List Token} (hx : Avoids chordStops x) (h : Parts true ts) :
      Parts b (.chord x :: ts)
  | literal {s : Text} {ts : List Token} (hne : s ≠ []) (hs : Avoids lyricStops s)
      (h : Parts false ts) : Parts true (.literal s :: ts)

/-- Lyrics that open a line do not open a headline or a quote, nor are they a metadata line. -/
structure Opens (ts : List Token) : Prop where
  start : ∀ s us, ts = .literal s :: us → s.head? ≠ some '#' ∧ s.head? ≠ some '>'
  plain : ∀ s, ts = [.literal s] → Entry.read? s = none

inductive Readable : List Token → Prop
  | headline {h : Headline} (hl : 1 ≤ h.level) (hs : stripLeft h.text = h.text)
      (hn : Avoids breaks h.text) : Readable [.headline h]
  | quote {s : Text} (hs : stripLeft s = s) (hn : Avoids breaks s) : Readable [.quote s]
  | entry {e : Entry} (he : e.Proper) : Readable [.entry e]
  | body {ts : List Token} (hp : Parts true ts) (ho : Opens ts) : Readable ts

theorem Parts.of_false {ts : List Token} (h : Parts false ts) : Parts true ts := by
  cases h with
  | nil => exact .nil true
  | chord _ hx h => exact .chord true hx h

theorem Opens.nil : Opens [] where
  start := nofun
  plain := nofun

theorem Opens.chord (x : Text) (ts : List Token) : Opens (.chord x :: ts) where
  start := nofun
  plain := nofun

theorem Readable.nil : Readable [] := .body (.nil true) .nil

/-! ## Lines read as readable ones -/

/-- Lyrics of nothing are no token. -/
def lyricTokens (s : Text) : List Token := if s = [] then [] else [.literal s]

theorem Segment.tokens_lyrics (s : Text) :
    (Segment.lyrics s).tokens = lyricTokens (s.filter (· != ']')) := by
  rw [tokens, lyricTokens]
  cases s.filter (· != ']') <;> rfl

theorem filter_closing {s : Text} (hs : ']' ∉ s) : s.filter (· != ']') = s :=
  List.filter_eq_self.mpr fun c hc => by
    have hb : c ≠ ']' := fun h => hs (by rw [← h]; exact hc)
    simpa using hb

theorem avoids_filter {s : Text} (hn : Avoids breaks s) (hs : '[' ∉ s) :
    Avoids lyricStops (s.filter (· != ']')) := by
  intro c hc
  obtain ⟨hc, hb⟩ := List.mem_filter.mp hc
  have hl : c ≠ '[' := fun h => hs (by rw [← h]; exact hc)
  have := hn c hc
  simp_all [lyricStops, breaks]

/-- Lyrics that come first in a line begin as the line does. -/
theorem head?_of_lyrics {r t s : Text} {ts us : List Token} (hl : (r ++ t).head? ≠ some ']')
    (hts : ∀ v vs, ts ≠ .literal v :: vs)
    (h : lyricTokens (r.filter (· != ']')) ++ ts = .literal s :: us) :
    s.head? = (r ++ t).head? := by
  rw [lyricTokens] at h
  by_cases hr : r.filter (· != ']') = []
  · rw [if_pos hr] at h
    exact absurd h (hts s us)
  · rw [if_neg hr] at h
    cases h
    cases r with
    | nil => exact absurd rfl hr
    | cons c r => rw [List.filter_cons_of_pos (by simpa using hl)]; rfl

theorem parts_lyrics {s : Text} {ts : List Token} (hs : Avoids lyricStops s) (h : Parts false ts) :
    Parts true (lyricTokens s ++ ts) := by
  unfold lyricTokens
  by_cases hne : s = []
  · rw [if_pos hne]
    exact h.of_false
  · rw [if_neg hne]
    exact .literal hne hs h

theorem avoids_chordStops {x : Text} (hn : Avoids breaks x) (hx : ']' ∉ x) :
    Avoids chordStops x := by
  intro c hc
  have hb : c ≠ ']' := fun h => hx (by rw [← h]; exact hc)
  have := hn c hc
  simp_all [chordStops, breaks]

namespace Line

theorem parts_bodyTokens {l : Text} (hl : Avoids breaks l) : Parts true (bodyTokens false l) := by
  induction l using segments_induction with
  | lyrics s hs =>
    rw [bodyTokens_lyrics hs, if_neg (by decide), Segment.tokens_lyrics,
      ← List.append_nil (lyricTokens _)]
    exact parts_lyrics (avoids_filter hl hs) (.nil false)
  | unclosed s x hs hx =>
    rw [avoids_append, avoids_cons] at hl
    rw [bodyTokens_unclosed hs hx, Segment.tokens_lyrics]
    exact parts_lyrics (avoids_filter hl.1 hs)
      (.chord false (avoids_chordStops hl.2.2 hx) (.nil true))
  | closed s x r hs hx ih =>
    rw [avoids_append, avoids_cons, avoids_append, avoids_cons] at hl
    rw [bodyTokens_closed hs hx, Segment.tokens_lyrics]
    exact parts_lyrics (avoids_filter hl.1 hs)
      (.chord false (avoids_chordStops hl.2.2.1 hx) (ih hl.2.2.2.2))

theorem head?_of_bodyTokens {l : Text} (hl : l.head? ≠ some ']') {s : Text} {us : List Token}
    (h : bodyTokens false l = .literal s :: us) : s.head? = l.head? := by
  rcases segments_cases l with hr | ⟨r, x, hr, hx, rfl⟩ | ⟨r, x, t, hr, hx, rfl⟩
  · rw [bodyTokens_lyrics hr, if_neg (by decide), Segment.tokens_lyrics,
      ← List.append_nil (lyricTokens _)] at h
    rw [← List.append_nil l] at hl ⊢
    exact head?_of_lyrics hl (by simp) h
  · rw [bodyTokens_unclosed hr hx, Segment.tokens_lyrics] at h
    exact head?_of_lyrics hl (by simp) h
  · rw [bodyTokens_closed hr hx, Segment.tokens_lyrics] at h
    exact head?_of_lyrics hl (by simp) h

theorem exists_chord_mem {l : Text} (hl : '[' ∈ l) : ∃ x, .chord x ∈ bodyTokens false l := by
  rcases segments_cases l with hs | ⟨s, x, hs, hx, rfl⟩ | ⟨s, x, r, hs, hx, rfl⟩
  · exact absurd hl hs
  · exact ⟨x, by simp [bodyTokens_unclosed hs hx]⟩
  · exact ⟨x, by simp [bodyTokens_closed hs hx]⟩

theorem bodyTokens_true (l : Text) :
    bodyTokens true l =
      if '[' ∈ l then bodyTokens false l else (bodyTokens false l).map recognize := by
  by_cases h : '[' ∈ l <;> simp [bodyTokens, h]

theorem readable_lyrics {s : Text} (hs : Avoids lyricStops s) (hh : s.head? ≠ some '#')
    (hq : s.head? ≠ some '>') : Readable ((lyricTokens s).map recognize) := by
  unfold lyricTokens
  by_cases hne : s = []
  · rw [if_pos hne]
    exact .nil
  rw [if_neg hne, List.map_singleton, recognize]
  cases he : Entry.read? s with
  | some e => exact .entry (Entry.proper_of_read? he hs)
  | none =>
    refine .body (.literal hne hs (.nil false)) ⟨?_, ?_⟩
    · rintro _ _ ⟨⟩
      exact ⟨hh, hq⟩
    · rintro _ ⟨⟩
      exact he

theorem readable_bodyTokens {c : Char} {r : Text} (hl : Avoids breaks (c :: r)) (hh : c ≠ '#')
    (hq : c ≠ '>') (hb : c ≠ ']') : Readable (bodyTokens true (c :: r)) := by
  rw [bodyTokens_true]
  by_cases h : '[' ∈ c :: r
  · rw [if_pos h]
    refine .body (parts_bodyTokens hl) ⟨fun s us hs => ?_, fun s hs => ?_⟩
    · rw [head?_of_bodyTokens (by simpa using hb) hs]
      simp [hh, hq]
    · obtain ⟨x, hx⟩ := exists_chord_mem h
      rw [hs, List.mem_singleton] at hx
      cases hx
  · rw [if_neg h, bodyTokens_lyrics h, if_neg (by decide), Segment.tokens_lyrics,
      List.filter_cons_of_pos (by simpa using hb)]
    refine readable_lyrics ?_ (by simpa using hh) (by simpa using hq)
    rw [← List.filter_cons_of_pos (p := (· != ']')) (by simpa using hb)]
    exact avoids_filter hl h

theorem exists_headline_text (l : Text) :
    ∃ r, (headline l).text = stripLeft r ∧ ∀ c ∈ r, c ∈ l := by
  have hsub : ∀ c ∈ l.dropWhile (· == '#'), c ∈ l := fun c hc => (List.dropWhile_sublist _).mem hc
  unfold headline
  split
  · next r h =>
    rw [h] at hsub
    exact ⟨r, rfl, fun c hc => hsub c (List.mem_cons_of_mem _ hc)⟩
  · next r h =>
    rw [h] at hsub
    exact ⟨r, rfl, fun c hc => hsub c (List.mem_cons_of_mem _ hc)⟩
  · exact ⟨_, rfl, hsub⟩

theorem readable_headline {l : Text} (hl : Avoids breaks l) :
    Readable [.headline (headline ('#' :: l))] := by
  obtain ⟨r, hr, hsub⟩ := exists_headline_text l
  rw [headline_hash]
  refine .headline (Nat.le_add_left 1 _) ?_ ?_
  · rw [hr, stripLeft_stripLeft]
  · rw [hr]
    exact (hl.of_subset hsub).stripLeft

theorem head?_content (l : Text) : (content l).head? ≠ some ']' := by
  induction l with
  | nil => simp [content]
  | cons c l ih =>
    by_cases hc : c = ']'
    · rw [hc, content_bracket]
      exact ih
    · rw [content_of_head (by simpa using hc)]
      simpa using hc

theorem readable_tokens {l : Text} (hl : Avoids breaks l) : Readable (tokens l) := by
  have hc : Avoids breaks (content l) := hl.of_subset fun c hc => (List.dropWhile_sublist _).mem hc
  have hb := head?_content l
  unfold tokens
  cases h : content l with
  | nil => exact .nil
  | cons c r =>
    rw [h] at hc hb
    by_cases hh : c = '#'
    · subst hh
      exact readable_headline (avoids_cons.mp hc).2
    by_cases hq : c = '>'
    · subst hq
      exact .quote (stripLeft_stripLeft r) (avoids_cons.mp hc).2.stripLeft
    · rw [contentTokens_body hh hq]
      exact readable_bodyTokens hc hh hq (by simpa using hb)

/-! ## Readable lines that are written -/

theorem headline_replicate (n : Nat) (l : Text) :
    headline (List.replicate n '#' ++ l) = { headline l with level := n + (headline l).level } := by
  induction n with
  | zero => simp
  | succ n ih =>
    rw [List.replicate_succ, List.cons_append, headline_hash, ih]
    simp
    omega

/-- A mark is followed by nothing or by a space. -/
theorem headline_mark (m : Modifier) {l : Text} (hl : l.head? = none ∨ l.head? = some ' ') :
    headline (m.mark ++ l) = ⟨0, stripLeft l, m⟩ := by
  cases m with
  | none =>
    cases l with
    | nil => rfl
    | cons c l =>
      have hc : c = ' ' := by simpa using hl
      subst hc
      exact headline_other (by decide) (by decide) (by decide) l
  | chorus => rfl
  | bridge => rfl

theorem tokens_hashes {n : Nat} (hn : 1 ≤ n) (l : Text) :
    tokens (List.replicate n '#' ++ l) = [.headline (headline (List.replicate n '#' ++ l))] := by
  obtain ⟨k, rfl⟩ := Nat.exists_eq_add_of_le' hn
  rfl

/-- A headline with a text behind a space, or without one. -/
theorem tokens_headline {n : Nat} (hn : 1 ≤ n) (m : Modifier) {l : Text}
    (hl : l.head? = none ∨ l.head? = some ' ') :
    tokens (List.replicate n '#' ++ m.mark ++ l) = [.headline ⟨n, stripLeft l, m⟩] := by
  rw [List.append_assoc, tokens_hashes hn, headline_replicate, headline_mark m hl]
  rfl

theorem tokens_quote (l : Text) : tokens ('>' :: l) = [.quote (stripLeft l)] := rfl

theorem tokens_body {l : Text} (hh : l.head? ≠ some '#') (hq : l.head? ≠ some '>')
    (hb : l.head? ≠ some ']') : tokens l = bodyTokens true l := by
  rw [tokens, content_of_head hb]
  cases l with
  | nil => simp [contentTokens, bodyTokens_lyrics, Segment.tokens]
  | cons c l => exact contentTokens_body (by simpa using hh) (by simpa using hq) l

theorem bodyTokens_plain {s : Text} (hs : Avoids lyricStops s) :
    bodyTokens false s = lyricTokens s := by
  rw [bodyTokens_lyrics (hs.not_mem (by decide)), if_neg (by decide), Segment.tokens_lyrics,
    filter_closing (hs.not_mem (by decide))]

/-- Behind lyrics that the line starts with, or without such. -/
theorem bodyTokens_write {b : Bool} {ts : List Token} (h : Parts b ts) {s : Text}
    (hs : Avoids lyricStops s) (hb : b = true → s = []) :
    bodyTokens false (s ++ write ts) = lyricTokens s ++ ts := by
  induction h generalizing s with
  | nil b => rw [write_nil, List.append_nil, List.append_nil, bodyTokens_plain hs]
  | @chord b x ts hx h ih =>
    have ht := ih (s := []) (by simp) (by simp)
    have hl := bodyTokens_lyrics (hs.not_mem (show '[' ∈ lyricStops by decide)) false
    rw [bodyTokens_plain hs, if_neg (by decide)] at hl
    rw [write_cons, Token.write, List.cons_append, List.cons_append, List.append_assoc,
      List.singleton_append, bodyTokens_closed (hs.not_mem (by decide)) (hx.not_mem (by decide)),
      ← hl]
    exact congrArg _ (congrArg _ ht)
  | @literal s' ts hne hs' h ih =>
    rw [hb rfl, List.nil_append, write_cons, Token.write, ih hs' (by simp)]
    simp [lyricTokens, hne]

theorem mem_write {ts : List Token} (h : Parts false ts) (hts : ts ≠ []) :
    '[' ∈ write ts := by
  cases h with
  | nil => exact absurd rfl hts
  | chord _ hx h => simp [Token.write]

theorem head?_write {ts : List Token} (hp : Parts true ts) (ho : Opens ts) :
    (write ts).head? ≠ some '#' ∧ (write ts).head? ≠ some '>' ∧ (write ts).head? ≠ some ']' := by
  cases hp with
  | nil => simp
  | chord _ hx h => simp [Token.write]
  | @literal s us hne hs h =>
    obtain ⟨hh, hq⟩ := ho.start s us rfl
    obtain ⟨c, r, rfl⟩ := List.exists_cons_of_ne_nil hne
    have hb : c ≠ ']' := fun hc => hs c (by simp) (by rw [hc]; decide)
    simp only [write_cons, Token.write, List.cons_append, List.head?_cons]
    exact ⟨hh, hq, by simpa using hb⟩

theorem tokens_write_body {ts : List Token} (hp : Parts true ts) (ho : Opens ts) :
    tokens (write ts) = ts := by
  obtain ⟨hh, hq, hb⟩ := head?_write hp ho
  have hts := bodyTokens_write hp (s := []) (by simp) (fun _ => rfl)
  rw [List.nil_append] at hts
  rw [tokens_body hh hq hb, bodyTokens_true]
  by_cases hl : '[' ∈ write ts
  · rw [if_pos hl, hts]
    rfl
  rw [if_neg hl, hts]
  -- without a chord only lyrics are left, if anything
  cases hp with
  | nil => rfl
  | chord _ hx h => simp [Token.write] at hl
  | @literal s us hne hs h =>
    by_cases hus : us = []
    · subst hus
      have hp := ho.plain s rfl
      simp [lyricTokens, recognize, hp]
    · rw [write_cons, List.mem_append, not_or] at hl
      exact absurd (mem_write h hus) hl.2

/-- The line of an entry has nothing but a keyword, a colon and a space before its value. -/
theorem avoids_write {cs : Text} (hcs : ∀ c ∈ cs, Entry.isWordChar c = false ∧ c ∉ [':', ' '])
    (k : Keyword) {v : Text} (hv : Avoids cs v) : Avoids cs (Entry.write ⟨k.name, v⟩) := by
  have hname : Avoids cs k.name := by
    intro c hc hs
    have hw := Keyword.isWordChar_of_mem_name hc
    rw [(hcs c hs).1] at hw
    cases hw
  have hcolon : ':' ∉ cs := fun h => (hcs _ h).2 (by decide)
  have hspace : ' ' ∉ cs := fun h => (hcs _ h).2 (by decide)
  rw [Entry.write, avoids_append, avoids_cons, avoids_cons]
  exact ⟨hname, hcolon, hspace, hv⟩

theorem avoids_write_proper {e : Entry} (he : e.Proper) : Avoids lyricStops e.write := by
  obtain ⟨k, hk⟩ := he.known
  obtain ⟨word, content⟩ := e
  obtain rfl : word = k.name := hk
  exact avoids_write (by decide) k he.clean

theorem head?_write_keyword (k : Keyword) (v : Text) {d : Char} (hd : Entry.isWordChar d = false) :
    (Entry.write ⟨k.name, v⟩).head? ≠ some d := by
  obtain ⟨c, w, hw, hc⟩ := k.exists_name_cons
  intro h
  rw [Entry.write, hw, List.cons_append, List.head?_cons, Option.some.injEq] at h
  rw [h, hd] at hc
  cases hc

/-- A line that starts with a keyword is a body line. -/
theorem tokens_keyword (k : Keyword) (v : Text) :
    tokens (Entry.write ⟨k.name, v⟩) = bodyTokens true (Entry.write ⟨k.name, v⟩) :=
  tokens_body (head?_write_keyword k v (by decide)) (head?_write_keyword k v (by decide))
    (head?_write_keyword k v (by decide))

theorem tokens_write_entry {e : Entry} (he : e.Proper) : tokens e.write = [.entry e] := by
  have hclean := avoids_write_proper he
  have hread := Entry.read?_write he
  obtain ⟨k, hk⟩ := he.known
  obtain ⟨word, content⟩ := e
  obtain rfl : word = k.name := hk
  have hne : Entry.write ⟨k.name, content⟩ ≠ [] := by simp [Entry.write]
  rw [tokens_keyword, bodyTokens_true, if_neg (hclean.not_mem (by decide)),
    bodyTokens_plain hclean, lyricTokens, if_neg hne, List.map_singleton, recognize, hread]

/-- A readable line that is written reads as itself. -/
theorem tokens_write {ts : List Token} (h : Readable ts) : tokens (write ts) = ts := by
  cases h with
  | @headline h hl hs hn =>
    rw [write_cons, write_nil, List.append_nil, Token.write]
    by_cases ht : h.level = 1 ∧ h.text = []
    · rw [if_pos ht, tokens_headline hl _ (.inl rfl)]
      obtain ⟨level, text, m⟩ := h
      obtain ⟨-, rfl⟩ : level = 1 ∧ text = [] := ht
      rfl
    · rw [if_neg ht, tokens_headline hl _ (.inr rfl), stripLeft_cons, if_pos (by decide), hs]
  | quote hs hn =>
    rw [write_cons, write_nil, List.append_nil, Token.write, tokens_quote, stripLeft_cons,
      if_pos (by decide), hs]
  | entry he => simpa [Token.write] using tokens_write_entry he
  | body hp ho => exact tokens_write_body hp ho

theorem write_eq_nil_iff {ts : List Token} (h : Readable ts) : write ts = [] ↔ ts = [] := by
  constructor
  · intro hw
    rw [← tokens_write h, hw]
    rfl
  · rintro rfl
    rfl

theorem avoids_breaks_parts {b : Bool} {ts : List Token} (h : Parts b ts) :
    Avoids breaks (write ts) := by
  induction h with
  | nil b => exact avoids_nil
  | @chord b x ts hx h ih =>
    have hx' : Avoids breaks x := hx.weaken (by decide)
    rw [write_cons, Token.write, avoids_append, List.cons_append, avoids_cons, avoids_append]
    exact ⟨⟨by decide, hx', by decide⟩, ih⟩
  | literal hne hs h ih =>
    rw [write_cons, Token.write, avoids_append]
    exact ⟨hs.weaken (by decide), ih⟩

theorem avoids_breaks_write {ts : List Token} (h : Readable ts) : Avoids breaks (write ts) := by
  cases h with
  | @headline h hl hs hn =>
    have hm : Avoids breaks h.modifier.mark := by cases h.modifier <;> decide
    have hh : Avoids breaks (List.replicate h.level '#') := fun c hc => by
      rw [List.eq_of_mem_replicate hc]
      decide
    rw [write_cons, write_nil, List.append_nil, Token.write, avoids_append, avoids_append]
    refine ⟨⟨hh, hm⟩, ?_⟩
    by_cases ht : h.level = 1 ∧ h.text = []
    · rw [if_pos ht]
      exact avoids_nil
    · rw [if_neg ht, avoids_cons]
      exact ⟨by decide, hn⟩
  | quote hs hn =>
    rw [write_cons, write_nil, List.append_nil, Token.write, avoids_cons, avoids_cons]
    exact ⟨by decide, by decide, hn⟩
  | entry he =>
    rw [write_cons, write_nil, List.append_nil]
    exact (avoids_write_proper he).weaken (by decide)
  | body hp ho => exact avoids_breaks_parts hp

end Line
end ChordSheet
