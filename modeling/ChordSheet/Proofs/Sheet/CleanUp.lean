import ChordSheet.Proofs.Text.Lines
import ChordSheet.Render.Sheet

/-! What tidying makes of any text, and what it leaves as it is.

* `withoutFeeds`: a text without its line feeds.
* `Gap`: how many line feeds stand between a character and the next one that is none.
* `Sheet.Neat`: the texts that are tidy.
* `Sheet.neat_tidy`, `Sheet.tidy_of_neat`: tidying makes a text neat, and leaves a neat one alone.
* `Sheet.exists_gap_of_tidy`: no other gaps become shorter than those of three line feeds or more.
* `Sheet.tidy_normal_form`: all of this at once. -/
namespace ChordSheet
set_option autoImplicit false

def withoutFeeds (s : Text) : Text := s.filter (· ≠ '\n')

/-- Behind `before`, with or without line feeds in it, there is a `c`, then `n` line feeds and then
a `d`. -/
def Gap (s before : Text) (c : Char) (n : Nat) (d : Char) : Prop :=
  ∃ t u, s = t ++ c :: (List.replicate n '\n' ++ d :: u) ∧ withoutFeeds t = before ∧
    c ≠ '\n' ∧ d ≠ '\n'

section Feeds
variable {s t before : Text} {a c d : Char} {n : Nat}

@[simp] theorem withoutFeeds_nil : withoutFeeds [] = [] := rfl

@[simp] theorem withoutFeeds_feed (s : Text) : withoutFeeds ('\n' :: s) = withoutFeeds s := rfl

theorem withoutFeeds_cons (ha : a ≠ '\n') (s : Text) :
    withoutFeeds (a :: s) = a :: withoutFeeds s :=
  List.filter_cons_of_pos (by simpa using ha)

@[simp] theorem withoutFeeds_append (s t : Text) :
    withoutFeeds (s ++ t) = withoutFeeds s ++ withoutFeeds t := List.filter_append s t

/-! ## Gaps -/

theorem gap_feed : Gap ('\n' :: s) before c n d ↔ Gap s before c n d := by
  constructor
  · rintro ⟨t, u, hs, ht, hc, hd⟩
    cases t with
    | nil => exact absurd (List.cons.inj hs).1.symm hc
    | cons b t =>
      obtain ⟨rfl, hrest⟩ := List.cons.inj hs
      exact ⟨t, u, hrest, ht, hc, hd⟩
  · rintro ⟨t, u, rfl, ht, hc, hd⟩
    exact ⟨'\n' :: t, u, rfl, ht, hc, hd⟩

/-- The first gap of a text that starts with `a`, or a later one. -/
theorem gap_cons (ha : a ≠ '\n') : Gap (a :: s) before c n d ↔
    (before = [] ∧ c = a ∧ d ≠ '\n' ∧ ∃ u, s = List.replicate n '\n' ++ d :: u) ∨
      ∃ rest, before = a :: rest ∧ Gap s rest c n d := by
  constructor
  · rintro ⟨t, u, hs, ht, hc, hd⟩
    cases t with
    | nil =>
      obtain ⟨rfl, hrest⟩ := List.cons.inj hs
      exact .inl ⟨ht.symm, rfl, hd, u, hrest⟩
    | cons b t =>
      obtain ⟨rfl, hrest⟩ := List.cons.inj hs
      rw [withoutFeeds_cons ha] at ht
      exact .inr ⟨withoutFeeds t, ht.symm, t, u, hrest, rfl, hc, hd⟩
  · rintro (⟨rfl, rfl, hd, u, rfl⟩ | ⟨rest, rfl, t, u, rfl, rfl, hc, hd⟩)
    · exact ⟨[], u, rfl, rfl, ha, hd⟩
    · exact ⟨a :: t, u, rfl, withoutFeeds_cons ha t, hc, hd⟩

theorem eq_of_replicate_append {m n : Nat} {t u : Text} (hd : d ≠ '\n')
    (h : List.replicate m '\n' ++ d :: t = List.replicate n '\n' ++ d :: u) : m = n := by
  induction m generalizing n with
  | zero =>
    cases n with
    | zero => rfl
    | succ n => exact absurd (List.cons.inj h).1 hd
  | succ m ih =>
    cases n with
    | zero => exact absurd (List.cons.inj h).1.symm hd
    | succ n => rw [ih (List.cons.inj h).2]

/-- What stands before a gap tells which gap it is. -/
theorem Gap.unique {m : Nat} (hm : Gap s before c m d) (hn : Gap s before c n d) : m = n := by
  induction s generalizing before with
  | nil =>
    obtain ⟨t, u, hs, -⟩ := hm
    simp at hs
  | cons a s ih =>
    by_cases ha : a = '\n'
    · subst ha
      exact ih (gap_feed.mp hm) (gap_feed.mp hn)
    · rcases (gap_cons ha).mp hm with ⟨rfl, -, hd, t, ht⟩ | ⟨rest, rfl, hrest⟩
      · rcases (gap_cons ha).mp hn with ⟨-, -, -, u, hu⟩ | ⟨_, hnil, -⟩
        · exact eq_of_replicate_append hd (ht.symm.trans hu)
        · cases hnil
      · rcases (gap_cons ha).mp hn with ⟨hnil, -⟩ | ⟨_, hcons, hrest'⟩
        · cases hnil
        · cases hcons
          exact ih hrest hrest'

theorem Gap.append (h : Gap s before c n d) (z : Text) : Gap (s ++ z) before c n d := by
  obtain ⟨t, u, rfl, ht, hc, hd⟩ := h
  exact ⟨t, u ++ z, by simp, ht, hc, hd⟩

/-- There is no gap behind the last character that is no line feed. -/
theorem Gap.of_concat (h : Gap (s ++ ['\n']) before c n d) : Gap s before c n d := by
  obtain ⟨t, u, hs, ht, hc, hd⟩ := h
  rcases List.eq_nil_or_concat' u with rfl | ⟨v, x, rfl⟩
  · have hlast : s ++ ['\n'] = (t ++ c :: List.replicate n '\n') ++ [d] := by rw [hs]; simp
    exact absurd (List.append_singleton_inj.mp hlast).2.symm hd
  · have hlast : s ++ ['\n'] = (t ++ c :: (List.replicate n '\n' ++ d :: v)) ++ [x] := by
      rw [hs]; simp
    exact ⟨t, v, (List.append_singleton_inj.mp hlast).1, ht, hc, hd⟩

end Feeds

/-! ## Rows of line feeds -/

/-- One more line feed in a row than there can be. -/
def longRow : Text := ['\n', '\n', '\n']

theorem infix_of_infix_append_cons {l s t : Text} {c : Char} (hc : c ∉ l)
    (h : l <:+: s ++ c :: t) : l <:+: s ∨ l <:+: t := by
  rcases List.infix_append_iff.mp h with h | h | ⟨l₁, l₂, rfl, h₁, h₂⟩
  · exact .inl h
  · rcases List.infix_cons_iff.mp h with h | h
    · rcases List.prefix_cons_iff.mp h with rfl | ⟨l', rfl, -⟩
      · exact .inl List.nil_infix
      · exact absurd List.mem_cons_self hc
    · exact .inr h
  · rcases List.prefix_cons_iff.mp h₂ with rfl | ⟨l', rfl, -⟩
    · rw [List.append_nil]
      exact .inl h₁.isInfix
    · exact absurd (by simp) hc

theorem replicate_append_feed (k : Nat) (s : Text) :
    List.replicate k '\n' ++ '\n' :: s = List.replicate (k + 1) '\n' ++ s := by
  rw [List.append_cons, List.replicate_succ']

theorem not_longRow_replicate {k : Nat} (hk : k ≤ 2) : ¬ longRow <:+: List.replicate k '\n' := by
  intro h
  have hlength := h.length_le
  rw [List.length_replicate] at hlength
  exact absurd (hlength.trans hk) (by decide)

/-- Together with the `k` line feeds that have been kept already. -/
theorem not_longRow_capBreaks {k : Nat} (hk : k ≤ 2) (s : Text) :
    ¬ longRow <:+: List.replicate k '\n' ++ capBreaks k s := by
  fun_induction capBreaks k s with
  | case1 k =>
    rw [List.append_nil]
    exact not_longRow_replicate hk
  | case2 k s hlt ih =>
    rw [replicate_append_feed]
    exact ih hlt
  | case3 k s hlt ih => exact ih hk
  | case4 k c s hc ih =>
    intro h
    have hc : c ∉ longRow := by simpa [longRow] using hc
    rcases infix_of_infix_append_cons hc h with h | h
    · exact not_longRow_replicate hk h
    · exact ih (by omega) h

theorem capBreaks_of_not_longRow {k : Nat} (hk : k ≤ 2) {s : Text}
    (h : ¬ longRow <:+: List.replicate k '\n' ++ s) : capBreaks k s = s := by
  fun_induction capBreaks k s with
  | case1 k => rfl
  | case2 k s hlt ih =>
    rw [replicate_append_feed] at h
    rw [ih hlt h]
  | case3 k s hlt ih =>
    obtain rfl : k = 2 := by omega
    exact absurd (List.prefix_append longRow s).isInfix h
  | case4 k c s hc ih =>
    have hs : ¬ longRow <:+: s := fun hs => h (hs.trans ((List.suffix_cons c s).isInfix.trans
      (List.suffix_append _ (c :: s)).isInfix))
    rw [ih (by omega) hs]

/-! ## What is lost -/

theorem withoutFeeds_capBreaks (k : Nat) (s : Text) :
    withoutFeeds (capBreaks k s) = withoutFeeds s := by
  fun_induction capBreaks k s with
  | case1 k => rfl
  | case2 k s hlt ih => exact ih
  | case3 k s hlt ih => exact ih
  | case4 k c s hc ih => rw [withoutFeeds_cons hc, withoutFeeds_cons hc, ih]

/-- The rest of a row, of which `k` line feeds have been kept already. -/
theorem exists_of_capBreaks_eq {k n : Nat} {s u : Text} {d : Char} (hd : d ≠ '\n')
    (h : capBreaks k s = List.replicate n '\n' ++ d :: u) :
    ∃ m v, s = List.replicate m '\n' ++ d :: v ∧ n = min (2 - k) m := by
  fun_induction capBreaks k s generalizing n with
  | case1 k => simp at h
  | case2 k s hlt ih =>
    cases n with
    | zero => exact absurd (List.cons.inj h).1.symm hd
    | succ n =>
      obtain ⟨m, v, rfl, hn⟩ := ih (List.cons.inj h).2
      exact ⟨m + 1, v, rfl, by omega⟩
  | case3 k s hlt ih =>
    obtain ⟨m, v, rfl, hn⟩ := ih h
    exact ⟨m + 1, v, rfl, by omega⟩
  | case4 k c s hc ih =>
    cases n with
    | zero =>
      obtain ⟨rfl, -⟩ := List.cons.inj h
      exact ⟨0, s, rfl, by omega⟩
    | succ n => exact absurd (List.cons.inj h).1 hc

theorem Gap.of_capBreaks {k n : Nat} {s before : Text} {c d : Char}
    (h : Gap (capBreaks k s) before c n d) : ∃ m, Gap s before c m d ∧ n = min 2 m := by
  fun_induction capBreaks k s generalizing before with
  | case1 k => obtain ⟨t, u, hs, -⟩ := h; simp at hs
  | case2 k s hlt ih =>
    obtain ⟨m, hm, hn⟩ := ih (gap_feed.mp h)
    exact ⟨m, gap_feed.mpr hm, hn⟩
  | case3 k s hlt ih =>
    obtain ⟨m, hm, hn⟩ := ih h
    exact ⟨m, gap_feed.mpr hm, hn⟩
  | case4 k a s ha ih =>
    rcases (gap_cons ha).mp h with ⟨rfl, rfl, hd, u, hu⟩ | ⟨rest, rfl, hrest⟩
    · obtain ⟨m, v, hs, hn⟩ := exists_of_capBreaks_eq hd hu
      exact ⟨m, (gap_cons ha).mpr (.inl ⟨rfl, rfl, hd, v, hs⟩), hn⟩
    · obtain ⟨m, hm, hn⟩ := ih hrest
      exact ⟨m, (gap_cons ha).mpr (.inr ⟨rest, rfl, hm⟩), hn⟩

theorem dropBreaks_feed (s : Text) : dropBreaks ('\n' :: s) = dropBreaks s :=
  List.dropWhile_cons_of_pos rfl

theorem dropBreaks_of_head? {s : Text} (h : s.head? ≠ some '\n') : dropBreaks s = s := by
  cases s with
  | nil => rfl
  | cons c s =>
    have hc : c ≠ '\n' := fun hc => h (by rw [hc]; rfl)
    exact List.dropWhile_cons_of_neg (by simpa using hc)

theorem head?_dropBreaks (s : Text) : (dropBreaks s).head? ≠ some '\n' := by
  induction s with
  | nil => exact nofun
  | cons c s ih =>
    by_cases hc : c = '\n'
    · rw [hc, dropBreaks_feed]
      exact ih
    · rw [dropBreaks_of_head? (by simpa using hc)]
      simpa using hc

theorem withoutFeeds_dropBreaks (s : Text) : withoutFeeds (dropBreaks s) = withoutFeeds s := by
  induction s with
  | nil => rfl
  | cons c s ih =>
    by_cases hc : c = '\n'
    · rw [hc, dropBreaks_feed, ih, withoutFeeds_feed]
    · rw [dropBreaks_of_head? (by simpa using hc)]

theorem Gap.of_dropBreaks {n : Nat} {s before : Text} {c d : Char}
    (h : Gap (dropBreaks s) before c n d) : Gap s before c n d := by
  induction s with
  | nil => exact h
  | cons a s ih =>
    by_cases ha : a = '\n'
    · subst ha
      rw [dropBreaks_feed] at h
      exact gap_feed.mpr (ih h)
    · rwa [dropBreaks_of_head? (by simpa using ha)] at h

theorem withoutFeeds_stripRight (s : Text) :
    withoutFeeds (stripRight s) = stripRight (withoutFeeds s) := by
  obtain ⟨z, hz, hs⟩ := exists_stripRight s
  have hblank : ∀ c ∈ withoutFeeds z, isBlank c := fun c hc => hz c (List.mem_of_mem_filter hc)
  rw [hs, withoutFeeds_append, stripRight_append_blanks _ hblank, ← hs]
  by_cases h : stripRight s = []
  · rw [h]
    rfl
  · obtain ⟨t, c, hc, hb⟩ := exists_concat_of_stripRight h
    have hfeed : c ≠ '\n' := fun hfeed => by simp [hfeed, isBlank] at hb
    rw [hc, withoutFeeds_append, withoutFeeds_cons hfeed, withoutFeeds_nil,
      stripRight_concat _ hb]

theorem Gap.of_stripRight {n : Nat} {s before : Text} {c d : Char}
    (h : Gap (stripRight s) before c n d) : Gap s before c n d := by
  obtain ⟨z, -, hs⟩ := exists_stripRight s
  rw [hs]
  exact h.append z

/-! ## Neat texts -/

namespace Sheet

/-- Either one line feed, or a text that starts with something else, has no long row of line feeds,
and has one line feed behind its last character that is no blank. -/
def Neat (s : Text) : Prop :=
  s = ['\n'] ∨ s.head? ≠ some '\n' ∧ ¬ longRow <:+: s ∧ ∃ t c, s = t ++ [c, '\n'] ∧ isBlank c = false

theorem neat_tidy (s : Text) : Neat (tidy s) := by
  have hrow : ¬ longRow <:+: capBreaks 0 s := not_longRow_capBreaks (Nat.zero_le 2) s
  obtain ⟨z, -, hz⟩ := exists_stripRight (dropBreaks (capBreaks 0 s))
  have hdrop : dropBreaks (capBreaks 0 s) <:+ capBreaks 0 s := List.dropWhile_suffix _
  have hhead := head?_dropBreaks (capBreaks 0 s)
  rw [hz] at hdrop hhead
  rw [tidy]
  by_cases h : stripRight (dropBreaks (capBreaks 0 s)) = []
  · exact .inl (by rw [h]; rfl)
  · obtain ⟨t, c, ht, hc⟩ := exists_concat_of_stripRight h
    rw [ht] at hdrop hhead ⊢
    have hfeed : c ≠ '\n' := fun hfeed => by simp [hfeed, isBlank] at hc
    refine .inr ⟨?_, ?_, t, c, by simp, hc⟩
    · cases t with
      | nil => simpa using hfeed
      | cons d t => exact hhead
    · intro hlong
      rcases List.infix_concat_iff.mp hlong with hlong | hlong
      · -- the last character but one is no line feed
        obtain ⟨u, hu⟩ := hlong
        have hlast : (u ++ ['\n']) ++ ['\n'] ++ ['\n'] = t ++ [c] ++ ['\n'] := by
          rw [← hu]
          simp [longRow]
        exact hfeed (List.append_singleton_inj.mp (List.append_singleton_inj.mp hlast).1).2.symm
      · exact hrow (hlong.trans ((List.prefix_append _ z).isInfix.trans hdrop.isInfix))

theorem tidy_of_neat {s : Text} (h : Neat s) : tidy s = s := by
  rcases h with rfl | ⟨hhead, hrow, t, c, rfl, hc⟩
  · rfl
  · have hfeed : ∀ d ∈ ['\n'], isBlank d := by decide
    have hcap : capBreaks 0 (t ++ [c, '\n']) = t ++ [c, '\n'] :=
      capBreaks_of_not_longRow (by omega) hrow
    have hstrip : stripRight (t ++ [c, '\n']) = t ++ [c] := by
      rw [List.append_cons, stripRight_append_blanks _ hfeed, stripRight_concat t hc]
    rw [tidy, hcap, dropBreaks_of_head? hhead, hstrip, ← List.append_cons]

theorem withoutFeeds_tidy (s : Text) :
    withoutFeeds (tidy s) = stripRight (withoutFeeds s) := by
  rw [tidy, withoutFeeds_append, withoutFeeds_stripRight, withoutFeeds_dropBreaks,
    withoutFeeds_capBreaks]
  exact List.append_nil _

/-- There is the same gap before, with as many line feeds or more. -/
theorem exists_gap_of_tidy {n : Nat} {s before : Text} {c d : Char}
    (h : Gap (tidy s) before c n d) : ∃ m, (∀ k, Gap s before c k d ↔ k = m) ∧ n = min 2 m := by
  obtain ⟨m, hm, hn⟩ := h.of_concat.of_stripRight.of_dropBreaks.of_capBreaks
  exact ⟨m, fun k => ⟨fun hk => hk.unique hm, fun hk => hk ▸ hm⟩, hn⟩

/-- A tidy text is neat, and what is neat is tidy already. Tidying takes nothing but line feeds and
the blanks at the end, and shortens the gaps between other characters to two line feeds at most. -/
theorem tidy_normal_form (s : Text) :
    Neat (tidy s) ∧ (tidy s = s ↔ Neat s) ∧ tidy (tidy s) = tidy s ∧
      withoutFeeds (tidy s) = stripRight (withoutFeeds s) ∧
      ∀ before c n d, Gap (tidy s) before c n d →
        ∃ m, (∀ k, Gap s before c k d ↔ k = m) ∧ n = min 2 m :=
  ⟨neat_tidy s, ⟨fun h => h ▸ neat_tidy s, tidy_of_neat⟩, tidy_of_neat (neat_tidy s),
    withoutFeeds_tidy s, fun _ _ _ _ => exists_gap_of_tidy⟩

example : tidy "\n a\n\n\n\nb  \n\n".toList = " a\n\nb\n".toList := by decide

end Sheet
end ChordSheet
