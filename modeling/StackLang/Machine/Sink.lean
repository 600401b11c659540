import StackLang.Location
import StackLang.Value

/-!
# Sinks

Printed values go to a sink. A sink is a state and a rule how one more value
changes it, and it may refuse a value with a reason; its state can change even
then. The values printed before a failure stay in the sink.

## Main definitions

* `Printed`: A value and the location of the statement that printed it.
* `Sink`: The states that can take printed values.
* `Transcript`: Keeps every value with its location.
* `TextSink`: Writes each value on a line of its own.
* `BoundedText`: The same, into a limited number of bytes.
* `Quota`: Keeps a limited number of values.

## Theorems

* `Transcript.toList_emit`: A transcript grows at its end.
* `TextSink.written_emit`: A text grows by the value and a line feed.
-/

namespace StackLang

/-- A printed value and the location of the statement that printed it. -/
structure Printed where
  value : Value
  loc : Location
deriving DecidableEq, Repr

/-- The line that a printed value makes in a text. -/
def Printed.line (p : Printed) : String := p.value.text ++ "\n"

/-- The states that can take printed values. Taking one may fail with a
    reason. -/
class Sink (σ : Type) where
  emit : Printed → EStateM String σ Unit

/-- A record of everything printed. -/
structure Transcript where
  /-- The printed values, latest first. -/
  latestFirst : List Printed
deriving DecidableEq, Repr

namespace Transcript

/-- The record of nothing. -/
def empty : Transcript := ⟨[]⟩

/-- The printed values in order. -/
def toList (t : Transcript) : List Printed := t.latestFirst.reverse

/-- The number of printed values. -/
def size (t : Transcript) : Nat := t.latestFirst.length

/-- The printed values in order, without their locations. -/
def values (t : Transcript) : List Value := t.toList.map Printed.value

/-- The record with one more value. -/
def record (t : Transcript) (p : Printed) : Transcript := ⟨p :: t.latestFirst⟩

instance : Sink Transcript where
  emit p := fun t => .ok () (t.record p)

@[simp]
theorem toList_empty : empty.toList = [] := rfl

@[simp]
theorem toList_record (t : Transcript) (p : Printed) :
    (t.record p).toList = t.toList ++ [p] :=
  List.reverse_cons

theorem toList_emit (t : Transcript) (p : Printed) :
    ∃ t', Sink.emit p t = .ok () t' ∧ t'.toList = t.toList ++ [p] :=
  ⟨t.record p, rfl, toList_record t p⟩

end Transcript

/-- A text with a line for each value. -/
structure TextSink where
  written : String
deriving DecidableEq, Repr

namespace TextSink

/-- The text without lines. -/
def empty : TextSink := ⟨""⟩

instance : Sink TextSink where
  emit p := fun t => .ok () ⟨t.written ++ p.line⟩

theorem written_emit (t : TextSink) (p : Printed) :
    ∃ t', Sink.emit p t = .ok () t' ∧ t'.written = t.written ++ (p.value.text ++ "\n") :=
  ⟨⟨t.written ++ p.line⟩, rfl, rfl⟩

end TextSink

/-- A text that can hold a limited number of bytes. -/
structure BoundedText where
  /-- The number of bytes that are still free. -/
  room : Nat
  written : String
deriving DecidableEq, Repr

namespace BoundedText

/-- An empty text with room for the given number of bytes. -/
def ofRoom (bytes : Nat) : BoundedText := ⟨bytes, ""⟩

/-- A line is written as far as it fits, and refused if it does not fit whole.
    Printed values are ASCII, so a byte is a character. -/
instance : Sink BoundedText where
  emit p := fun t =>
    let line := p.line.toList
    let fits := line.take t.room
    -- What fits is written even when the rest is not.
    let after : BoundedText := ⟨t.room - line.length, t.written ++ String.ofList fits⟩
    if line.length ≤ t.room then .ok () after
    else .error "failed to write whole buffer" after

end BoundedText

/-- A record that takes a limited number of values and refuses all further
    ones. -/
structure Quota where
  /-- The number of values that are still taken. -/
  room : Nat
  reason : String
  transcript : Transcript
deriving DecidableEq, Repr

namespace Quota

/-- An empty record with room for the given number of values. -/
def ofRoom (values : Nat) (reason : String) : Quota := ⟨values, reason, .empty⟩

instance : Sink Quota where
  emit p := fun q =>
    match q.room with
    | 0 => .error q.reason q
    | room + 1 => .ok () { q with room := room, transcript := q.transcript.record p }

end Quota

end StackLang
