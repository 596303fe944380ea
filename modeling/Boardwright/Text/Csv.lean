import Boardwright.Text.Split

/-!
# Separated values

A record is written as its fields with commas between them and the end of a line after
them. A field that holds a comma, a quotation mark or the end of a line is put in
quotation marks, and a quotation mark in it is written twice.
-/

namespace Boardwright.Text.Csv

/-- Whether a character makes a field need quotation marks. -/
def isSpecial (c : Char) : Bool := c == ',' || c == '"' || c == '\r' || c == '\n'

/-- A field with each quotation mark written twice. -/
def doubled : List Char → List Char
  | [] => []
  | c :: cs => if c == '"' then '"' :: '"' :: doubled cs else c :: doubled cs

def field (s : String) : String :=
  if s.toList.any isSpecial then "\"" ++ String.ofList (doubled s.toList) ++ "\"" else s

def record (fields : List String) : String := Text.join "," (fields.map field) ++ "\r\n"

def text (records : List (List String)) : String := String.join (records.map record)

end Boardwright.Text.Csv
