import ChordSheet.Text.Blank

/-! Line breaks: a text has one kind of them, the line feed.

* `normalizeBreaks`: a carriage return, alone or with the line feed after it, becomes a line feed.
* `capBreaks`: no more than two line feeds in a row are kept. -/
namespace ChordSheet
set_option autoImplicit false

def normalizeBreaks : Text → Text
  | [] => []
  | '\r' :: '\n' :: s => '\n' :: normalizeBreaks s
  | c :: s => (if c = '\r' then '\n' else c) :: normalizeBreaks s

/-- `capBreaks k s` reads `s` after `k` line feeds of the running row have been kept. -/
def capBreaks : Nat → Text → Text
  | _, [] => []
  | k, c :: s =>
    if c = '\n' then
      if k < 2 then c :: capBreaks (k + 1) s else capBreaks k s
    else c :: capBreaks 0 s

def dropBreaks (s : Text) : Text := s.dropWhile (· == '\n')

end ChordSheet
