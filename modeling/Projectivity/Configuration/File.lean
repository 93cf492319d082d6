import Projectivity.Configuration.Basic

/-!
# Configuration files

A configuration file is a document with a section for this library.  How a document is
read from the content of a file and written to it is a parameter: a reader finds no
document in a file that is not well formed.
-/

set_option autoImplicit false

namespace Projectivity.Configuration

/-- Whether one text occurs inside of another. -/
def occursIn (part whole : List Char) : Bool :=
  (List.range (whole.length + 1)).any fun i => part.isPrefixOf (whole.drop i)

/-- The configuration in a document, of which there is none if the file is not well formed.  The
name of the section is sought in whatever the document is, but only a record can hold it. -/
def ofDocument (path : String) : Option Value → Result Configuration
  | none => .error .unreadableFile
  | some document =>
    if document.isEmpty then .error (.missingSection path)
    else match document with
      | .record entries =>
        match Value.field? entries Fault.sectionName with
        | some v => ofValue v
        | none => .error (.missingSection path)
      | .list items =>
        if items.any (Value.same (.text Fault.sectionName)) then .error .wrongType
        else .error (.missingSection path)
      | .text s =>
        if occursIn Fault.sectionName.toList s.toList then .error .wrongType
        else .error (.missingSection path)
      | _ => .error .wrongType

/-- A configuration as a document. -/
def toDocument (c : Configuration) : Value := .record [(.text Fault.sectionName, c.toValue)]

/-- The configuration in a file, given by its content; there is no content if there is no
file. -/
def load (reader : String → Option Value) (path : String) : Option String → Result Configuration
  | none => .error (.noSuchFile path)
  | some content => ofDocument path (reader content)

/-- The content of the file for a configuration. -/
def save (writer : Value → String) (c : Configuration) : String := writer c.toDocument

end Projectivity.Configuration
