import ChordSheet.Proofs.Grammar.Line
import ChordSheet.Render.Html

/-! A strict reader of markup fragments, and what it makes of escaped text and of tags.

* `Markup`: a fragment as a tree; character data stands in it character by character.
* `Advance`: a reader of single items that always gets on; `Advance.all?` reads a text of them.
* `Markup.character?`, `Markup.attribute?`, `Markup.piece?`: items of values, tags and fragments.
* `Markup.Stack.step`: a tag opens an element or closes the innermost one and no other.
* `Markup.read`: the nodes of a whole fragment.
* `Markup.Reads`: a text stands for nodes wherever it occurs; `reads_escape`, `reads_tagWith`. -/
namespace ChordSheet
set_option autoImplicit false

inductive Markup
  | char (c : Char)
  | element (name : Text) (attributes : List (Text × Text)) (children : List Markup)

/-! ## Items one after the other -/

/-- A reader of the first item of a text, which always leaves less than there was. -/
structure Advance (α : Type) where
  next? : Text → Option (α × Text)
  shorter : ∀ {s r : Text} {a : α}, next? s = some (a, r) → r.length < s.length

namespace Advance
variable {α : Type} (p : Advance α)

/-- Items up to the first place where there is none, and the text from there on. -/
def items (s : Text) : List α × Text :=
  match _h : p.next? s with
  | some (a, r) => (a :: (items r).1, (items r).2)
  | none => ([], s)
termination_by s.length
decreasing_by all_goals exact p.shorter _h

/-- A whole text as items. -/
def all? (s : Text) : Option (List α) := if (p.items s).2 = [] then some (p.items s).1 else none

theorem items_next {s r : Text} {a : α} (h : p.next? s = some (a, r)) :
    p.items s = (a :: (p.items r).1, (p.items r).2) := by
  rw [items.eq_def]
  split
  · next b t ht =>
    rw [h] at ht
    cases ht
    rfl
  · next hn =>
    rw [h] at hn
    cases hn

theorem items_end {s : Text} (h : p.next? s = none) : p.items s = ([], s) := by
  rw [items.eq_def]
  split
  · next a r hs =>
    rw [h] at hs
    cases hs
  · rfl

theorem next?_nil : p.next? [] = none := by
  cases h : p.next? [] with
  | none => rfl
  | some x => exact absurd (p.shorter h) (Nat.not_lt_zero _)

theorem all?_nil : p.all? [] = some [] := by
  rw [all?, items_end p (next?_nil p), if_pos rfl]

theorem all?_next {s r : Text} {a : α} (h : p.next? s = some (a, r)) :
    p.all? s = (p.all? r).map (a :: ·) := by
  rw [all?, all?, items_next p h]
  by_cases hr : (p.items r).2 = []
  · rw [if_pos hr, if_pos hr]
    rfl
  · rw [if_neg hr, if_neg hr]
    rfl

end Advance

namespace Markup

/-- What stands before the first `c`, which must be there, and what stands behind it. -/
def until? (c : Char) (s : Text) : Option (Text × Text) :=
  (Line.cut c s).2.map ((Line.cut c s).1, ·)

theorem until?_append_cons {c : Char} {s : Text} (hs : c ∉ s) (t : Text) :
    until? c (s ++ c :: t) = some (s, t) := by
  rw [until?, Line.cut_append_cons hs]
  rfl

theorem length_of_until? {c : Char} {s a t : Text} (h : until? c s = some (a, t)) :
    t.length < s.length := by
  obtain ⟨u, hu, he⟩ := Option.map_eq_some_iff.mp h
  cases he
  exact Line.length_of_cut (Prod.ext rfl hu)

/-! ## Characters -/

/-- Characters that stand for themselves nowhere but in tags. -/
def reserved : Text := ['&', '<', '>', '\x22', '\x27']

def entities : List (Text × Char) :=
  [("amp".toList, '&'), ("lt".toList, '<'), ("gt".toList, '>'), ("quot".toList, '\x22'),
   ("#x27".toList, '\x27'), ("nbsp".toList, '\xA0')]

def entity? (name : Text) : Option Char := (entities.find? (·.1 == name)).map (·.2)

def character? : Text → Option (Char × Text)
  | [] => none
  | '&' :: s => (until? ';' s).bind fun x => (entity? x.1).map (·, x.2)
  | c :: s => if reserved.contains c then none else some (c, s)

theorem shorter_character? {s r : Text} {c : Char} (h : character? s = some (c, r)) :
    r.length < s.length := by
  unfold character? at h
  split at h
  · cases h
  · next s =>
    obtain ⟨x, hx, hc⟩ := Option.bind_eq_some_iff.mp h
    obtain ⟨d, -, he⟩ := Option.map_eq_some_iff.mp hc
    cases he
    have hlength := length_of_until? hx
    rw [List.length_cons]
    omega
  · next d s hd =>
    by_cases hr : reserved.contains d
    · rw [if_pos hr] at h
      cases h
    · rw [if_neg hr] at h
      cases h
      exact Nat.lt_succ_self _

def characters : Advance Char := ⟨character?, shorter_character?⟩

/-! ## Tags -/

def isNameChar (c : Char) : Bool := c.isAlphanum || c == '-'

def isName (s : Text) : Bool := !s.isEmpty && s.all isNameChar

/-- A value in double quotes. -/
def value? : Text → Option (Text × Text)
  | '\x22' :: s => (until? '\x22' s).bind fun x => (characters.all? x.1).map (·, x.2)
  | _ => none

/-- A blank, a name, the equals sign and a value. -/
def attribute? : Text → Option ((Text × Text) × Text)
  | ' ' :: s => (until? '=' s).bind fun x =>
    if isName x.1 then (value? x.2).map fun v => ((x.1, v.1), v.2) else none
  | _ => none

theorem length_of_value? {s v r : Text} (h : value? s = some (v, r)) : r.length < s.length := by
  unfold value? at h
  split at h
  · next s =>
    obtain ⟨x, hx, hv⟩ := Option.bind_eq_some_iff.mp h
    obtain ⟨v', -, he⟩ := Option.map_eq_some_iff.mp hv
    cases he
    have hlength := length_of_until? hx
    rw [List.length_cons]
    omega
  · cases h

theorem shorter_attribute? {s r : Text} {a : Text × Text} (h : attribute? s = some (a, r)) :
    r.length < s.length := by
  unfold attribute? at h
  split at h
  · next s =>
    obtain ⟨x, hx, ha⟩ := Option.bind_eq_some_iff.mp h
    by_cases hn : isName x.1
    · rw [if_pos hn] at ha
      obtain ⟨v, hv, he⟩ := Option.map_eq_some_iff.mp ha
      cases he
      have hkey := length_of_until? hx
      have hvalue := length_of_value? hv
      rw [List.length_cons]
      omega
    · rw [if_neg hn] at ha
      cases ha
  · cases h

def attributes : Advance (Text × Text) := ⟨attribute?, shorter_attribute?⟩

inductive Piece
  | char (c : Char)
  | opening (name : Text) (attributes : List (Text × Text))
  | closing (name : Text)
  | void (name : Text) (attributes : List (Text × Text))
  deriving DecidableEq, Repr

/-- A tag with attributes up to its end opens an element; one with a slash at the end is an element
without children. -/
def Piece.ofAttributes? (name : Text) : List (Text × Text) × Text → Option Piece
  | (as, []) => some (.opening name as)
  | (as, ['/']) => some (.void name as)
  | _ => none

/-- What stands between the angles of a tag. -/
def tag? : Text → Option Piece
  | '/' :: name => if isName name then some (.closing name) else none
  | s =>
    if s.takeWhile isNameChar = [] then none
    else Piece.ofAttributes? (s.takeWhile isNameChar) (attributes.items (s.dropWhile isNameChar))

/-- A tag from angle to angle, or a character. -/
def piece? : Text → Option (Piece × Text)
  | '<' :: s => (until? '>' s).bind fun x => (tag? x.1).map (·, x.2)
  | s => (character? s).map fun x => (.char x.1, x.2)

theorem shorter_piece? {s r : Text} {p : Piece} (h : piece? s = some (p, r)) :
    r.length < s.length := by
  unfold piece? at h
  split at h
  · next s =>
    obtain ⟨x, hx, hp⟩ := Option.bind_eq_some_iff.mp h
    obtain ⟨q, -, he⟩ := Option.map_eq_some_iff.mp hp
    cases he
    have hlength := length_of_until? hx
    rw [List.length_cons]
    omega
  · obtain ⟨x, hx, he⟩ := Option.map_eq_some_iff.mp h
    cases he
    exact shorter_character? hx

def pieces : Advance Piece := ⟨piece?, shorter_piece?⟩

/-! ## Nesting -/

/-- An element that is still open, with the nodes that stand before it on its own level. -/
structure Frame where
  name : Text
  attributes : List (Text × Text)
  before : List Markup

/-- The nodes of the innermost open element, and all open elements from the inside out. -/
structure Stack where
  nodes : List Markup := []
  frames : List Frame := []

namespace Stack

def add (k : Stack) (ms : List Markup) : Stack := { k with nodes := k.nodes ++ ms }

/-- A closing tag must bear the name of the innermost open element. -/
def step (k : Stack) : Piece → Option Stack
  | .char c => some (k.add [.char c])
  | .void name as => some (k.add [.element name as []])
  | .opening name as => some ⟨[], ⟨name, as, k.nodes⟩ :: k.frames⟩
  | .closing name => match k.frames with
    | [] => none
    | f :: fs =>
      if f.name = name then some ⟨f.before ++ [.element name f.attributes k.nodes], fs⟩ else none

theorem add_nil (k : Stack) : k.add [] = k := by
  rw [add, List.append_nil]

theorem add_add (k : Stack) (ms ns : List Markup) : (k.add ms).add ns = k.add (ms ++ ns) := by
  rw [add, add, add, List.append_assoc]

end Stack

def readFrom (k : Stack) (s : Text) : Option Stack := (pieces.all? s).bind (·.foldlM Stack.step k)

/-- A fragment is read to its end, and no element is left open there. -/
def read (s : Text) : Option (List Markup) :=
  match readFrom {} s with
  | some ⟨ms, []⟩ => some ms
  | _ => none

theorem readFrom_nil (k : Stack) : readFrom k [] = some k := by
  rw [readFrom, Advance.all?_nil]
  rfl

theorem readFrom_piece {s r : Text} {p : Piece} (h : piece? s = some (p, r)) (k : Stack) :
    readFrom k s = (k.step p).bind (readFrom · r) := by
  rw [readFrom, Advance.all?_next pieces h]
  -- the whole text is cut into pieces first, so a fault behind this piece is found before the stack
  cases hr : pieces.all? r with
  | none => cases k.step p <;> simp [readFrom, hr]
  | some ps => simp [readFrom, hr]

/-! ## Texts and their nodes -/

/-- Wherever the text occurs, these nodes are added to those that have been read. -/
def Reads (s : Text) (ms : List Markup) : Prop :=
  ∀ (k : Stack) (rest : Text), readFrom k (s ++ rest) = readFrom (k.add ms) rest

theorem reads_nil : Reads [] [] := by
  intro k rest
  rw [Stack.add_nil, List.nil_append]

theorem Reads.append {s t : Text} {ms ns : List Markup} (hs : Reads s ms) (ht : Reads t ns) :
    Reads (s ++ t) (ms ++ ns) := by
  intro k rest
  rw [List.append_assoc, hs, ht, Stack.add_add]

theorem reads_flatMap {α : Type} {f : α → Text} {g : α → List Markup} (xs : List α)
    (h : ∀ x ∈ xs, Reads (f x) (g x)) : Reads (xs.flatMap f) (xs.flatMap g) := by
  induction xs with
  | nil => exact reads_nil
  | cons x xs ih =>
    obtain ⟨hx, hxs⟩ := List.forall_mem_cons.mp h
    rw [List.flatMap_cons, List.flatMap_cons]
    exact hx.append (ih hxs)

theorem Reads.read_eq {s : Text} {ms : List Markup} (h : Reads s ms) : read s = some ms := by
  have hs := h {} []
  rw [List.append_nil, readFrom_nil] at hs
  rw [read, hs]
  rfl

/-! ### Character data -/

theorem piece?_of_character? {s r : Text} {c : Char} (h : character? s = some (c, r)) :
    piece? s = some (.char c, r) := by
  unfold piece?
  split
  · cases h
  · rw [h]
    rfl

theorem reads_character {s : Text} {c : Char}
    (h : ∀ rest, character? (s ++ rest) = some (c, rest)) : Reads s [.char c] := by
  intro k rest
  rw [readFrom_piece (piece?_of_character? (h rest))]
  rfl

theorem character?_escapeChar (c : Char) (rest : Text) :
    character? (Html.escapeChar c ++ rest) = some (c, rest) := by
  unfold Html.escapeChar
  split
  · rfl
  · rfl
  · rfl
  · rfl
  · rfl
  · next hamp hlt hgt hquote hmark =>
    have hr : ¬ reserved.contains c := by
      simp only [reserved, List.contains_iff_mem, List.mem_cons, List.not_mem_nil, or_false, not_or]
      exact ⟨hamp, hlt, hgt, hquote, hmark⟩
    rw [List.singleton_append, character?.eq_3 _ _ hamp, if_neg hr]

/-- A text as character data. -/
def text (s : Text) : List Markup := s.map char

theorem reads_escape (s : Text) : Reads (Html.escape s) (text s) := by
  have hchar : ∀ c ∈ s, Reads (Html.escapeChar c) [.char c] := fun c _ =>
    reads_character (character?_escapeChar c)
  rw [text, List.map_eq_flatMap]
  exact reads_flatMap s hchar

theorem reads_blank : Reads "&nbsp;".toList [.char '\xA0'] := reads_character fun _ => rfl

/-! ### Values and attributes -/

theorem all?_escape (s : Text) : characters.all? (Html.escape s) = some s := by
  induction s with
  | nil => exact Advance.all?_nil characters
  | cons c s ih =>
    have hnext : characters.next? (Html.escape (c :: s)) = some (c, Html.escape s) :=
      character?_escapeChar c (Html.escape s)
    rw [Advance.all?_next characters hnext, ih]
    rfl

/-- The characters that bound tags and values. -/
def bounds : Text := ['<', '>', '\x22', '\x27']

theorem not_mem_escapeChar {c : Char} (hc : c ∈ bounds) (d : Char) : c ∉ Html.escapeChar d := by
  have hentity : ∀ e ∈ ["&amp;".toList, "&lt;".toList, "&gt;".toList, "&quot;".toList,
      "&#x27;".toList], ∀ b ∈ bounds, b ∉ e := by decide
  unfold Html.escapeChar
  split
  · exact hentity _ (by decide) c hc
  · exact hentity _ (by decide) c hc
  · exact hentity _ (by decide) c hc
  · exact hentity _ (by decide) c hc
  · exact hentity _ (by decide) c hc
  · next hamp hlt hgt hquote hmark =>
    intro h
    rw [List.mem_singleton.mp h] at hc
    simp only [bounds, List.mem_cons, List.not_mem_nil, or_false] at hc
    exact hc.elim hlt (·.elim hgt (·.elim hquote hmark))

theorem not_mem_escape {c : Char} (hc : c ∈ bounds) (s : Text) : c ∉ Html.escape s := by
  intro h
  obtain ⟨d, -, hd⟩ := List.mem_flatMap.mp h
  exact not_mem_escapeChar hc d hd

def dashed (key : Text) : Text := key.map fun c => if c = '_' then '-' else c

theorem isNameChar_of_mem {s : Text} (hs : isName s) : ∀ c ∈ s, isNameChar c := by
  rw [isName, Bool.and_eq_true, List.all_eq_true] at hs
  exact hs.2

theorem not_mem_name {c : Char} (hc : isNameChar c = false) {s : Text} (hs : isName s) : c ∉ s := by
  intro h
  rw [isNameChar_of_mem hs c h] at hc
  cases hc

theorem attribute?_assign {key : Text} (hk : isName (dashed key)) (value rest : Text) :
    attribute? (Html.assign key value ++ rest) = some ((dashed key, value), rest) := by
  have hkey : '=' ∉ dashed key := not_mem_name (by decide) hk
  have hvalue : '\x22' ∉ Html.escape value := not_mem_escape (by decide) value
  have hshape : Html.assign key value ++ rest =
      ' ' :: (dashed key ++ '=' :: '\x22' :: (Html.escape value ++ '\x22' :: rest)) := by
    simp [Html.assign, dashed]
  rw [hshape, attribute?, until?_append_cons hkey, Option.bind_some, if_pos hk, value?,
    until?_append_cons hvalue, Option.bind_some, all?_escape]
  rfl

/-- Attributes as they are written, and as they are read. -/
def assigned (as : List (Text × Text)) : Text := as.flatMap fun a => Html.assign a.1 a.2

def shown (as : List (Text × Text)) : List (Text × Text) := as.map fun a => (dashed a.1, a.2)

theorem items_assigned {as : List (Text × Text)} (h : ∀ a ∈ as, isName (dashed a.1)) :
    attributes.items (assigned as) = (shown as, []) := by
  induction as with
  | nil => exact Advance.items_end attributes rfl
  | cons a as ih =>
    obtain ⟨ha, has⟩ := List.forall_mem_cons.mp h
    have hnext : attributes.next? (assigned (a :: as)) = some ((dashed a.1, a.2), assigned as) :=
      attribute?_assign ha a.2 (assigned as)
    rw [Advance.items_next attributes hnext, ih has]
    rfl

/-! ### Tags -/

/-- Whatever cannot stand in a name ends the name before it. -/
theorem tag?_name {name : Text} (hn : isName name) {t : Text}
    (ht : ∀ c, t.head? = some c → ¬ isNameChar c) :
    tag? (name ++ t) = Piece.ofAttributes? name (attributes.items t) := by
  have hname := isNameChar_of_mem hn
  have htake : (name ++ t).takeWhile isNameChar = name := by
    rw [List.takeWhile_append_of_pos hname]
    cases t with
    | nil => exact List.append_nil name
    | cons c t => rw [List.takeWhile_cons_of_neg (ht c rfl), List.append_nil]
  have hdrop : (name ++ t).dropWhile isNameChar = t := by
    rw [List.dropWhile_append_of_pos hname]
    cases t with
    | nil => rfl
    | cons c t => exact List.dropWhile_cons_of_neg (ht c rfl)
  have hne : name ≠ [] := by
    rintro rfl
    cases hn
  have hslash : ∀ u, name ++ t = '/' :: u → False := by
    intro u hu
    obtain ⟨c, s, rfl⟩ := List.exists_cons_of_ne_nil hne
    rw [List.cons_append, List.cons.injEq] at hu
    have hc := hname c List.mem_cons_self
    rw [hu.1] at hc
    cases hc
  rw [tag?.eq_2 _ hslash, htake, hdrop, if_neg hne]

theorem tag?_opening {name : Text} (hn : isName name) {as : List (Text × Text)}
    (ha : ∀ a ∈ as, isName (dashed a.1)) :
    tag? (name ++ assigned as) = some (.opening name (shown as)) := by
  have hblank : ∀ c, (assigned as).head? = some c → ¬ isNameChar c := by
    intro c hc
    cases as with
    | nil => cases hc
    | cons a as =>
      cases hc
      decide
  rw [tag?_name hn hblank, items_assigned ha]
  rfl

theorem tag?_void {name : Text} (hn : isName name) :
    tag? (name ++ ['/']) = some (.void name []) := by
  have hslash : ∀ c, ['/'].head? = some c → ¬ isNameChar c := by
    rintro c ⟨⟩
    decide
  rw [tag?_name hn hslash, Advance.items_end attributes rfl]
  rfl

theorem tag?_closing {name : Text} (hn : isName name) :
    tag? ('/' :: name) = some (.closing name) := if_pos hn

theorem piece?_tag {t : Text} (ht : '>' ∉ t) {p : Piece} (hp : tag? t = some p) (rest : Text) :
    piece? ('<' :: (t ++ '>' :: rest)) = some (p, rest) := by
  rw [piece?, until?_append_cons ht, Option.bind_some, hp]
  rfl

theorem not_mem_assigned {c : Char} (hc : c ∈ ['<', '>']) {as : List (Text × Text)}
    (h : ∀ a ∈ as, isName (dashed a.1)) : c ∉ assigned as := by
  have hangle : isNameChar c = false ∧ c ∈ bounds ∧ c ∉ [' ', '=', '\x22'] := by
    have hall : ∀ c ∈ ['<', '>'], isNameChar c = false ∧ c ∈ bounds ∧ c ∉ [' ', '=', '\x22'] := by
      decide
    exact hall c hc
  intro hmem
  obtain ⟨a, ha, hmem⟩ := List.mem_flatMap.mp hmem
  have hkey : c ∉ dashed a.1 := not_mem_name hangle.1 (h a ha)
  have hvalue : c ∉ Html.escape a.2 := not_mem_escape hangle.2.1 a.2
  have hshape : Html.assign a.1 a.2 =
      ' ' :: dashed a.1 ++ '=' :: '\x22' :: Html.escape a.2 ++ ['\x22'] := rfl
  rw [hshape] at hmem
  simp_all

/-- An element is read when its content is, whatever stands around it. -/
theorem reads_tagWith {name : Text} (hn : isName name) {as : List (Text × Text)}
    (ha : ∀ a ∈ as, isName (dashed a.1)) {content : Text} {ms : List Markup}
    (hc : Reads content ms) :
    Reads (Html.tagWith name (assigned as) content) [.element name (shown as) ms] := by
  intro k rest
  have hopening : '>' ∉ name ++ assigned as := by
    rw [List.mem_append, not_or]
    exact ⟨not_mem_name (by decide) hn, not_mem_assigned (by decide) ha⟩
  have hclosing : '>' ∉ '/' :: name := by
    rw [List.mem_cons, not_or]
    exact ⟨by decide, not_mem_name (by decide) hn⟩
  have hshape : Html.tagWith name (assigned as) content ++ rest =
      '<' :: ((name ++ assigned as) ++
        '>' :: (content ++ '<' :: (('/' :: name) ++ '>' :: rest))) := by
    simp [Html.tagWith]
  rw [hshape, readFrom_piece (piece?_tag hopening (tag?_opening hn ha) _)]
  -- the content is read on top of this element, so its own closing tag finds it innermost
  show readFrom ⟨[], ⟨name, shown as, k.nodes⟩ :: k.frames⟩ _ = _
  rw [hc, readFrom_piece (piece?_tag hclosing (tag?_closing hn) rest), Stack.step, Stack.add]
  simp [Stack.add]

theorem reads_void {name : Text} (hn : isName name) :
    Reads ('<' :: (name ++ ['/', '>'])) [.element name [] []] := by
  intro k rest
  have hbounds : '>' ∉ name ++ ['/'] := by
    rw [List.mem_append, not_or]
    exact ⟨not_mem_name (by decide) hn, by decide⟩
  have hshape : '<' :: (name ++ ['/', '>']) ++ rest = '<' :: ((name ++ ['/']) ++ '>' :: rest) := by
    simp
  rw [hshape, readFrom_piece (piece?_tag hbounds (tag?_void hn) rest)]
  rfl

end Markup
end ChordSheet
