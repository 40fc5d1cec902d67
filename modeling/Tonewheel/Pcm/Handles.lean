import Tonewheel.Pcm.Playback

/-!
# Handles on buffers (SPEC_FULL, sections 3 and 9)

A desk numbers handles on buffers, and playbacks that hold a buffer as a handle does. Several
handles can share a buffer; what is written through one is read through all.
-/

namespace Tonewheel

structure Desk where
  shelf : Shelf := {}
  /-- Handles by number, none once they are dropped. -/
  handles : Array (Option PcmId) := #[]
  playbacks : Array Playback := #[]

namespace Desk

def pcm? (d : Desk) (handle : Nat) : Option PcmId := d.handles.getD handle none

def hold (d : Desk) (buffer : Block) : Nat × Desk :=
  let (id, shelf) := d.shelf.add buffer
  (d.handles.size, { d with shelf, handles := d.handles.push (some id) })

def share (d : Desk) (handle : Nat) : Nat × Desk :=
  (d.handles.size, { d with handles := d.handles.push (d.pcm? handle) })

def drop (d : Desk) (handle : Nat) : Desk :=
  { d with handles := d.handles.setIfInBounds handle none }

def write (d : Desk) (handle i : Nat) (x : Float32) : Desk :=
  match d.pcm? handle with
  | some id => { d with shelf := d.shelf.writeSample id i x }
  | none => d

def read (d : Desk) (handle : Nat) : Block :=
  match d.pcm? handle with
  | some id => d.shelf.read id
  | none => #[]

def same (d : Desk) (first second : Nat) : Bool := d.pcm? first == d.pcm? second

def holders (d : Desk) (handle : Nat) : Nat :=
  d.handles.toList.countP (fun h => h.isSome && h == d.pcm? handle)
    + d.playbacks.toList.countP (fun p => some p.pcm == d.pcm? handle)

def play (d : Desk) (handle : Nat) (gain : Float32) : Nat × Desk :=
  match d.pcm? handle with
  | some id =>
    (d.playbacks.size, { d with playbacks := d.playbacks.push (.ofBuffer d.shelf id gain) })
  | none => (d.playbacks.size, d)

def mix (d : Desk) (playback : Nat) (out : Block) : Block × Desk :=
  match d.playbacks[playback]? with
  | some p =>
    let (block, p) := p.render d.shelf out.size
    (Block.mix out block, { d with playbacks := d.playbacks.setIfInBounds playback p })
  | none => (out, d)

end Desk

end Tonewheel
