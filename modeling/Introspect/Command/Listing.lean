import Introspect.Image.Symbols
import Introspect.Linkage.SymbolName
import Introspect.Mapping.Description
import Introspect.Registry.Discovery
/-!
# Listings

What the commands print about memory maps, images and symbols, line by line.
-/
namespace Introspect
namespace Listing

/-! ## Memory maps -/

def mappingLine (m : Mapping) : String :=
  let path := m.path.getD ""
  s!"{m.start.display}-{m.stop.display} {m.permissions} {Text.hexadecimal 8 m.offset} {path}"

def baseLine (base : Location × Address) : String := s!"  {base.2.display} {base.1.text}"

def mappings (ms : List Mapping) : List String :=
  let bases := Mapping.bases ms
  ms.map mappingLine ++ if bases.isEmpty then [] else "" :: "Load bases:" :: bases.map baseLine

/-! ## Images -/

def imageHeading (file : String) (h : Image.Header) : List String := [
  s!"File: {file}",
  "  Type: " ++ if h.isRelocatable then "shared object / PIE" else "executable",
  s!"  Entry: 0x{Text.hexadecimal 1 h.entry}",
  s!"  Sections: {Text.decimal h.sectionCount}",
  ""]

def entryLine (e : Image.Entry) (name : Linkage.SymbolName) : String :=
  let size := Text.padLeft 6 ' ' (Text.decimal e.size)
  let language := Text.padRight 5 ' ' name.language.label
  s!"0x{Text.hexadecimal 16 e.value} {size} {language} {name.display}"

/-- A line for each entry of the symbol tables that has a name. -/
def entryLines (bytes : Bytes) : List String :=
  ((Image.sections bytes).filter Image.Section.isSymbolTable).flatMap fun s =>
    (Image.symbolsOf bytes s).filterMap fun (e, names) =>
      ((Image.nameOf? bytes e names).filter (!·.isEmpty)).map fun raw => entryLine e (Linkage.SymbolName.ofRaw raw)

def counted (lines : List String) (what : String) : List String :=
  lines ++ ["", s!"{Text.decimal lines.length} {what}"]

def image (file : String) (all : Bool) (bytes : Bytes) (h : Image.Header) : List String :=
  imageHeading file h ++
    if all then counted (entryLines bytes) "symbols"
    else counted ((Image.symbols bytes .null).map Symbol.display) "reflection symbols"

/-! ## Symbols -/

def selected (r : Registry) (kind : Option SymbolKind) (filter : Option String) : List Symbol :=
  Registry.sortedByAddress <| r.list.filter fun s =>
    kind.all (· = s.kind) && filter.all fun text => Text.contains text.toList s.demangled.toList

def symbols (ss : List Symbol) (report : Report) : List String :=
  counted (ss.map Symbol.display) <|
    s!"symbols listed ({Text.decimal report.indexed} files indexed, {Text.decimal report.skipped} skipped)"

def symbol (s : Symbol) : List String := [s.display, s!"  linkage name: {s.name}"]

end Listing
end Introspect
