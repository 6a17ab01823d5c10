import Intentd.ChatToolDeltas

/-!
# A client that keeps the blocks

The client keys blocks by id. It replaces a block by what it is sent, except that a text in
flight grows by a fragment, and keeps the media it had next to what a later frame resolves. A
frame of a completed message is taken as it is. After the entities of a delta the removed ids
are dropped.
-/
namespace Intentd.ChatReader
open JsonValues ChatConflation

abbrev Reader := String → Option Json

def empty : Reader := fun _ => none

def mediaField (block : Json) : Option Fields := (block.get "media").bind Json.asObj

/-- The media of a text in flight: entries that were there stay. -/
def keepMedia (old : Option Json) (block : Json) : Json :=
  match mediaField block, old.bind mediaField with
  | some media, acc => block.insert "media" (.obj (extend (acc.getD []) media))
  | none, some acc => block.insert "media" (.obj acc)
  | none, none => block

/-- The text of a block in flight: a fragment is appended to what was there. -/
def growText (old : Option Json) (block : Json) : Json :=
  match block.strField "textDelta" with
  | some fragment =>
    (block.remove "textDelta").insert "text"
      (.str ((old.bind (·.strField "text")).getD "" ++ fragment))
  | none => block

def blockAfter (old : Option Json) (entity : Json) : Json :=
  match entity.get "streamingComplete" with
  | some (.bool true) => blockOf entity
  | _ =>
    if (blockOf entity).strField "type" ∈ [some "text", some "thinking"] then
      keepMedia old (growText old (blockOf entity))
    else blockOf entity

def upsert (r : Reader) (entity : Json) : Reader :=
  match (blockOf entity).strField "id" with
  | some id => Function.update r id (some (blockAfter (r id) entity))
  | none => r

def listField (delta : Json) (key : String) : List Json := ((delta.get key).bind Json.asArr).getD []

def apply (r : Reader) (delta : Json) : Reader := fun id =>
  if id ∈ (listField delta "removedIds").filterMap Json.asStr then none
  else (listField delta "added" ++ listField delta "updated").foldl upsert r id

def read (r : Reader) (deltas : List Json) : Reader := deltas.foldl apply r

end Intentd.ChatReader
