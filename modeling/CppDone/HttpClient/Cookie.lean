import CppDone.Lib.Lines
import Mathlib.Data.List.Infix

/-!
# `HttpCookie`: the cookie file

`readFile` and `writeFile` of `http_cookie.cpp`, over the bytes of the file: opening it, reading
it into one string and reporting an I/O error are left out, so `readFile` takes the string that
`getStringFromFile` returned and `writeFile` gives the bytes it put into the file.

`std::vector::operator[]` is not checked. An access behind the last field of a line is undefined
behaviour, which the model keeps apart from every result: `none`.
-/

set_option autoImplicit false

namespace CppDone

abbrev Str := List Char

structure CookieInfo where
  domain : Str
  tailMatch : Bool
  path : Str
  secure : Bool
  expires : Str
  name : Str
  value : Str
deriving DecidableEq, Repr

structure HttpCookie where
  cookies_ : List CookieInfo
deriving DecidableEq, Repr

/-- What a C function sees of `s.data()`: everything before the first NUL. -/
def cstr (s : Str) : Str := s.takeWhile (· ≠ '\x00')

theorem cstr_append {s : Str} (hs : '\x00' ∉ s) (rest : Str) :
    cstr (s ++ rest) = s ++ cstr rest := by
  apply List.takeWhile_append_of_pos
  intro c hc
  rw [decide_eq_true_eq]
  rintro rfl
  exact hs hc

theorem cstr_append_nul {s : Str} (hs : '\x00' ∉ s) (rest : Str) :
    cstr (s ++ '\x00' :: rest) = s := by
  have hnul : cstr ('\x00' :: rest) = [] := List.takeWhile_cons_of_neg (by decide)
  rw [cstr_append hs, hnul, List.append_nil]

/-- `s.substr(pos)`, which throws past the end. -/
def substr (s : Str) (pos : Nat) : Option Str :=
  if pos ≤ s.length then some (s.drop pos) else none

namespace HttpCookie

/-! ## `readFile`

The loop takes the lines of the file one by one and splits each at its tabs, both with `getline`. A
line of less than seven fields is not rejected: its fields are read all the same. -/

/-- `strcmp("TRUE", s.data()) == 0`. -/
def isTRUE (s : Str) : Bool := cstr s = "TRUE".toList

/-- One leading dot of a domain is dropped. -/
def stripDot (domain : Str) : Str :=
  if domain.head? = some '.' then domain.tail else domain

/-- A `CookieInfo` from the fields of a line, `elems[0]` to `elems[6]`. -/
def ofElems (elems : List Str) : Option CookieInfo := do
  let domain ← elems[0]?
  let tailMatch ← elems[1]?
  let path ← elems[2]?
  let secure ← elems[3]?
  let expires ← elems[4]?
  let name ← elems[5]?
  let value ← elems[6]?
  return { domain := stripDot domain, tailMatch := isTRUE tailMatch, path,
           secure := isTRUE secure, expires, name, value }

def httpOnly : Str := "#HttpOnly_".toList

/-- The line after the test for the HttpOnly prefix. The source calls `cookie.substr(10)` and
drops what it returns, so the line keeps its prefix. -/
def skipHttpOnly (cookie : Str) : Option Str :=
  if httpOnly <:+: cookie then (substr cookie 10).map fun _ => cookie
  else some cookie

/-- One turn of the loop over `cookieVec`. -/
def readCookie (cookies_ : List CookieInfo) (cookie : Str) : Option (List CookieInfo) :=
  if cookie = [] then some cookies_
  else do
    let cookie ← skipHttpOnly cookie
    if cookie.head? = some '#' then some cookies_
    else do
      let co ← ofElems (getlines '\t' cookie)
      some (cookies_ ++ [co])

def readFile (h : HttpCookie) (strFile : Str) : Option HttpCookie :=
  if strFile = [] then some h
  else
    let cookieVec := getlines '\n' strFile
    if cookieVec = [] then some h
    else do
      let cookies_ ← cookieVec.foldlM readCookie []
      some { cookies_ }

/-! ## `writeFile`

One string per cookie is handed to `fputs`. Neither the strings nor the header's last line end with
a line end. -/

/-- The four header lines. The last one is not ended. -/
def header : Str :=
  "# Netscape HTTP Cookie File".toList ++ '\n' ::
  ("# http://curl.haxx.se/docs/http-cookies.html".toList ++ '\n' ::
  ("# This file was generated by HttpClient! Edit at your own risk.".toList ++ '\n' ::
  "# Test HttpClient cookie write".toList))

def boolText (b : Bool) : Str := if b then "TRUE".toList else "FALSE".toList

/-- `line` as `writeFile` builds it for one cookie: seven fields, six tabs, no line end. -/
def line (item : CookieInfo) : Str :=
  item.domain ++ '\t' :: boolText item.tailMatch ++ '\t' :: item.path ++
    '\t' :: boolText item.secure ++ '\t' :: item.expires ++ '\t' :: item.name ++
    '\t' :: item.value

/-- The bytes of the file. `fputs` stops at a NUL of the line. -/
def writeFile (h : HttpCookie) : Str :=
  h.cookies_.foldl (fun out item => out ++ cstr (line item)) header

end HttpCookie

end CppDone
