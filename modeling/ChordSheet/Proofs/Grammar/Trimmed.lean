import ChordSheet.Proofs.Grammar.Written

/-! Lines of tokens whose text has lost the blanks at its end, and lines with other chords.

* `Line.trim`: what is left of a line; `tokens_stripRight_write`: it is what the text reads as.
* `Line.rewrite`: a line with its chord texts rewritten; `readable_rewrite`: it stays readable.
* `trim_rewrite`: the two do not get in each other's way. -/
namespace ChordSheet
set_option autoImplicit false

/-! ## Trimmed lines -/

def Token.trim : Token → List Token
  | .headline h => [.headline { h with text := stripRight h.text }]
  | .literal s => lyricTokens (stripRight s)
  | .quote s => [.quote (stripRight s)]
  | t => [t]

namespace Line

def trim : List Token → List Token
  | [] => []
  | [t] => t.trim
  | t :: u :: ts => t :: trim (u :: ts)

theorem write_lyricTokens (s : Text) : write (lyricTokens s) = s := by
  unfold lyricTokens
  by_cases h : s = []
  · rw [if_pos h, h, write_nil]
  · rw [if_neg h, write_cons, write_nil, Token.write, List.append_nil]

theorem stripRight_write_ne_nil {ts : List Token} (h : Parts false ts) (hts : ts ≠ []) :
    stripRight (write ts) ≠ [] := by
  intro hs
  have hb := (stripRight_eq_nil_iff _).mp hs _ (mem_write h hts)
  exact absurd hb (by decide)

theorem write_trim {b : Bool} {ts : List Token} (h : Parts b ts) :
    write (trim ts) = stripRight (write ts) := by
  induction h with
  | nil b => rfl
  | @chord b x ts hx h ih =>
    have hc := stripRight_concat ('[' :: x) (show isBlank ']' = false by decide)
    cases ts with
    | nil =>
      rw [write_cons, write_nil, List.append_nil, Token.write, hc]
      exact List.append_nil _
    | cons u us =>
      rw [trim, write_cons, ih, write_cons (.chord x), Token.write, stripRight_append]
      by_cases hu : stripRight (write (u :: us)) = []
      · rw [if_pos hu, hu, hc, List.append_nil]
      · rw [if_neg hu]
  | @literal s ts hne hs h ih =>
    cases ts with
    | nil =>
      rw [trim, Token.trim, write_lyricTokens, write_cons, write_nil, List.append_nil, Token.write]
    | cons u us =>
      rw [trim, write_cons, ih, write_cons (.literal s), Token.write,
        stripRight_append_of_ne s (stripRight_write_ne_nil h (by simp))]

theorem parts_lyricTokens {s : Text} (hs : Avoids lyricStops s) : Parts true (lyricTokens s) := by
  have h := parts_lyrics hs (.nil false)
  rwa [List.append_nil] at h

theorem parts_trim {b : Bool} {ts : List Token} (h : Parts b ts) : Parts b (trim ts) := by
  induction h with
  | nil b => exact .nil b
  | @chord b x ts hx h ih =>
    cases ts with
    | nil => exact .chord b hx (.nil true)
    | cons u us => exact .chord b hx ih
  | @literal s ts hne hs h ih =>
    cases ts with
    | nil => exact parts_lyricTokens hs.stripRight
    | cons u us => exact .literal hne hs ih

theorem trim_ne_nil {ts : List Token} (h : Parts false ts) (hts : ts ≠ []) : trim ts ≠ [] := by
  intro ht
  have hw := write_trim h
  rw [ht] at hw
  exact stripRight_write_ne_nil h hts hw.symm

theorem head?_stripRight {s : Text} (hs : stripRight s ≠ []) : (stripRight s).head? = s.head? := by
  cases s with
  | nil => rfl
  | cons c s =>
    rw [stripRight_cons] at hs ⊢
    by_cases h : stripRight s = []
    · rw [if_pos h] at hs ⊢
      by_cases hc : isBlank c
      · rw [if_pos hc] at hs
        exact absurd rfl hs
      · rw [if_neg hc]
        rfl
    · rw [if_neg h]
      rfl

theorem opens_lyricTokens {s : Text} (hh : s.head? ≠ some '#') (hq : s.head? ≠ some '>')
    (he : Entry.read? s = none) : Opens (lyricTokens s) := by
  unfold lyricTokens
  by_cases hs : s = []
  · rw [if_pos hs]
    exact .nil
  · rw [if_neg hs]
    constructor
    · rintro _ _ ⟨⟩
      exact ⟨hh, hq⟩
    · rintro _ ⟨⟩
      exact he

theorem opens_trim {ts : List Token} (hp : Parts true ts) (ho : Opens ts) : Opens (trim ts) := by
  cases hp with
  | nil => exact .nil
  | @chord _ x us hx h =>
    cases us with
    | nil => exact .chord x []
    | cons u us => exact .chord x _
  | @literal s us hne hs h =>
    obtain ⟨hh, hq⟩ := ho.start s us rfl
    cases us with
    | nil =>
      obtain ⟨z, hz, hsz⟩ := exists_stripRight s
      have he := ho.plain s rfl
      rw [hsz, Entry.read?_append_blanks _ hz] at he
      by_cases hr : stripRight s = []
      · rw [trim, Token.trim, hr]
        exact .nil
      · rw [← head?_stripRight hr] at hh hq
        exact opens_lyricTokens hh hq he
    | cons u us =>
      constructor
      · rintro _ _ ⟨⟩
        exact ⟨hh, hq⟩
      · intro s' hs'
        rw [trim, List.cons.injEq] at hs'
        exact absurd hs'.2 (trim_ne_nil h (by simp))

theorem readable_trim {ts : List Token} (h : Readable ts) : Readable (trim ts) := by
  cases h with
  | headline hl hs hn => exact .headline hl (stripLeft_stripRight hs) hn.stripRight
  | quote hs hn => exact .quote (stripLeft_stripRight hs) hn.stripRight
  | entry he => exact .entry he
  | body hp ho => exact .body (parts_trim hp) (opens_trim hp ho)

theorem stripRight_hashes {n : Nat} (hn : 1 ≤ n) (m : Modifier) :
    stripRight (List.replicate n '#' ++ m.mark) = List.replicate n '#' ++ m.mark := by
  cases m with
  | none =>
    obtain ⟨k, rfl⟩ := Nat.exists_eq_add_of_le' hn
    rw [Modifier.mark, List.append_nil, List.replicate_succ']
    exact stripRight_concat _ (by decide)
  | chorus => exact stripRight_concat _ (by decide)
  | bridge => exact stripRight_concat _ (by decide)

/-- The end of what stands behind a mark and a space. -/
theorem stripRight_space {s : Text} (hs : stripRight s ≠ []) :
    stripRight (' ' :: s) = ' ' :: stripRight s := by
  rw [stripRight_cons, if_neg hs]

theorem stripRight_write_headline {h : Headline} (hl : 1 ≤ h.level)
    (hs : stripLeft h.text = h.text) :
    (h.text = [] ∧ stripRight (Token.headline h).write =
        List.replicate h.level '#' ++ h.modifier.mark) ∨
      stripRight (Token.headline h).write =
        (Token.headline { h with text := stripRight h.text }).write := by
  rw [Token.write, stripRight_append_flush (stripRight_hashes hl _)]
  by_cases ht : stripRight h.text = []
  · have ht' := eq_nil_of_flush hs ht
    refine .inl ⟨ht', ?_⟩
    by_cases h1 : h.level = 1
    · simp [ht', h1, stripRight]
    · rw [if_neg (fun h0 => h1 h0.1), ht', show stripRight [' '] = [] by decide, List.append_nil]
  · right
    have ht' : h.text ≠ [] := fun h0 => ht (by rw [h0]; rfl)
    rw [if_neg (fun h0 => ht' h0.2), stripRight_space ht, Token.write, if_neg (fun h0 => ht h0.2)]

theorem stripRight_write_quote {s : Text} (hs : stripLeft s = s) :
    s = [] ∨ stripRight (Token.quote s).write = (Token.quote (stripRight s)).write := by
  by_cases hr : stripRight s = []
  · exact .inl (eq_nil_of_flush hs hr)
  · right
    rw [Token.write, stripRight_cons, stripRight_space hr, if_neg (by simp), Token.write]

theorem stripRight_write_entry {e : Entry} (hs : strip e.content = e.content)
    (hne : e.content ≠ []) : stripRight e.write = e.write := by
  have hc := (flush_of_strip hs).2
  have hcne : stripRight e.content ≠ [] := by rwa [hc]
  rw [Entry.write, List.append_cons, List.append_cons, stripRight_append_of_ne _ hcne, hc]

/-- Text that has lost its blanks at the end reads as the trimmed line. -/
theorem tokens_stripRight_write {ts : List Token} (h : Readable ts) :
    tokens (stripRight (write ts)) = trim ts := by
  have ht := tokens_write (readable_trim h)
  cases h with
  | @headline h hl hs hn =>
    rw [write_cons, write_nil, List.append_nil]
    rcases stripRight_write_headline hl hs with ⟨ht', he⟩ | he
    · have hw := tokens_headline hl h.modifier (.inl (show ([] : Text).head? = none from rfl))
      rw [List.append_nil] at hw
      rw [he, hw, trim, Token.trim, ht']
      rfl
    · simpa [trim, Token.trim, he] using ht
  | @quote s hs hn =>
    rcases stripRight_write_quote hs with rfl | he
    · rfl
    · simpa [trim, Token.trim, he] using ht
  | @entry e he =>
    rw [write_cons, write_nil, List.append_nil, Token.write, stripRight_write_entry he.flush he.filled,
      tokens_write_entry he]
    rfl
  | body hp ho => rw [← write_trim hp, ht]

theorem stripRight_write_trim {ts : List Token} (h : Readable ts) :
    stripRight (write (trim ts)) = stripRight (write ts) := by
  cases h with
  | @headline h hl hs hn =>
    rw [trim, Token.trim, write_cons, write_nil, List.append_nil, write_cons, write_nil,
      List.append_nil]
    rcases stripRight_write_headline hl hs with ⟨ht', -⟩ | he
    · rw [ht']
      obtain ⟨level, text, m⟩ := h
      obtain rfl : text = [] := ht'
      rfl
    · rw [he, ← he, stripRight_stripRight]
  | @quote s hs hn =>
    rw [trim, Token.trim, write_cons, write_nil, List.append_nil, write_cons, write_nil,
      List.append_nil]
    rcases stripRight_write_quote hs with rfl | he
    · rfl
    · rw [he, ← he, stripRight_stripRight]
  | entry he => rfl
  | body hp ho => rw [write_trim hp, stripRight_stripRight]

/-- Nothing is left of a line just when nothing is left of its text. -/
theorem stripRight_write_eq_nil_iff {ts : List Token} (h : Readable ts) :
    stripRight (write ts) = [] ↔ trim ts = [] := by
  constructor
  · intro hs
    rw [← tokens_stripRight_write h, hs]
    rfl
  · intro ht
    rw [← stripRight_write_trim h, ht]
    rfl

end Line

/-! ## Rewritten chords -/

def Token.rewrite (w : Text → Text) : Token → Token
  | .chord x => .chord (w x)
  | t => t

namespace Line

def rewrite (w : Text → Text) (ts : List Token) : List Token := ts.map (Token.rewrite w)

/-- The texts stay such as can stand in a chord. -/
def Tame (w : Text → Text) : Prop := ∀ x, Avoids chordStops x → Avoids chordStops (w x)

theorem rewrite_rewrite (v w : Text → Text) (ts : List Token) :
    rewrite v (rewrite w ts) = rewrite (v ∘ w) ts := by
  rw [rewrite, rewrite, rewrite, List.map_map]
  congr 1
  funext t
  cases t <;> rfl

theorem trim_rewrite (w : Text → Text) (ts : List Token) :
    trim (rewrite w ts) = rewrite w (trim ts) := by
  fun_induction trim ts with
  | case1 => rfl
  | case2 t =>
    cases t with
    | literal s =>
      rw [Token.trim, lyricTokens]
      by_cases hs : stripRight s = []
      · simp [rewrite, Token.rewrite, trim, Token.trim, lyricTokens, hs]
      · simp [rewrite, Token.rewrite, trim, Token.trim, lyricTokens, hs]
    | _ => rfl
  | case3 t u ts ih => exact congrArg _ ih

theorem parts_rewrite {w : Text → Text} (hw : Tame w) {b : Bool} {ts : List Token}
    (h : Parts b ts) : Parts b (rewrite w ts) := by
  induction h with
  | nil b => exact .nil b
  | chord b hx h ih => exact .chord b (hw _ hx) ih
  | literal hne hs h ih => exact .literal hne hs ih

theorem opens_rewrite (w : Text → Text) {ts : List Token} (h : Opens ts) :
    Opens (rewrite w ts) := by
  cases ts with
  | nil => exact .nil
  | cons t ts =>
    constructor
    · intro s us he
      cases t <;> cases he
      exact h.start _ _ rfl
    · intro s he
      cases t <;> cases ts <;> cases he
      exact h.plain _ rfl

theorem readable_rewrite {w : Text → Text} (hw : Tame w) {ts : List Token} (h : Readable ts) :
    Readable (rewrite w ts) := by
  cases h with
  | headline hl hs hn => exact .headline hl hs hn
  | quote hs hn => exact .quote hs hn
  | entry he => exact .entry he
  | body hp ho => exact .body (parts_rewrite hw hp) (opens_rewrite w ho)

theorem readable_map_rewrite {w : Text → Text} (hw : Tame w) {ls : List (List Token)}
    (h : ∀ l ∈ ls, Readable l) : ∀ l ∈ ls.map (rewrite w), Readable l := by
  intro l hl
  obtain ⟨k, hk, rfl⟩ := List.mem_map.mp hl
  exact readable_rewrite hw (h k hk)

end Line
end ChordSheet
