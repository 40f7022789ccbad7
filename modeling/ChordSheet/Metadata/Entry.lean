import ChordSheet.Text.Blank

/-! Metadata lines, `Keyword: value`.

* `Field`: the twelve named fields of a song; `Keyword`: these and the naming.
* `Entry.read?`: the entry on a line; the keyword is known in any case of letters.
* `Entry.write`: the line of an entry. -/
namespace ChordSheet
set_option autoImplicit false

inductive Field
  | subtitle
  | artist
  | composer
  | lyricist
  | copyright
  | album
  | year
  | key
  | time
  | tempo
  | duration
  | capo
  deriving DecidableEq, Repr

namespace Field

def name : Field → Text
  | subtitle => "Subtitle".toList
  | artist => "Artist".toList
  | composer => "Composer".toList
  | lyricist => "Lyricist".toList
  | copyright => "Copyright".toList
  | album => "Album".toList
  | year => "Year".toList
  | key => "Key".toList
  | time => "Time".toList
  | tempo => "Tempo".toList
  | duration => "Duration".toList
  | capo => "Capo".toList

def all : List Field :=
  [subtitle, artist, composer, lyricist, copyright, album, year, key, time, tempo, duration, capo]

end Field

inductive Keyword
  | field (f : Field)
  | naming
  deriving DecidableEq, Repr

namespace Keyword

def name : Keyword → Text
  | field f => f.name
  | naming => "B-Notation".toList

def all : List Keyword := Field.all.map field ++ [naming]

def ofName? (s : Text) : Option Keyword := all.find? (fun k => k.name == s)

def lower (s : Text) : Text := s.map Char.toLower

/-- The case of the letters does not matter. -/
def ofWord? (word : Text) : Option Keyword := all.find? (fun k => lower k.name == lower word)

end Keyword

/-! ## Entries -/

structure Entry where
  keyword : Text
  content : Text
  deriving DecidableEq, Repr

namespace Entry

def isWordChar (c : Char) : Bool := c.isAlpha || c == '-'

/-- A value has something in it and stays on one line. -/
def value? (s : Text) : Option Text :=
  let v := strip s
  if v.isEmpty || v.contains '\n' then none else some v

def read? (line : Text) : Option Entry :=
  let s := stripLeft line
  match stripLeft (s.dropWhile isWordChar) with
  | ':' :: rest => do
    let keyword ← Keyword.ofWord? (s.takeWhile isWordChar)
    let content ← value? rest
    some ⟨keyword.name, content⟩
  | _ => none

def write (e : Entry) : Text := e.keyword ++ ':' :: ' ' :: e.content

end Entry
end ChordSheet
