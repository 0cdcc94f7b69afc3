import Monkey.Main
import Monkey.Value.Equality
import Monkey.Proofs.Session.Pieces
import Monkey.Proofs.Token.Cover
import Monkey.Proofs.Phrase.Rendering
import Monkey.Proofs.Phrase.Local
import Monkey.Proofs.Phrase.Failure
import Monkey.Proofs.Phrase.FirstError
import Monkey.Proofs.Token.Position
import Monkey.Proofs.Phrase.Recovery
import Monkey.Proofs.Phrase.Segment
import Monkey.Proofs.Run.Printing
import Monkey.Proofs.Session.Chain
import Monkey.Proofs.Session.Keys
import Monkey.Proofs.Run.Rebuild
import Monkey.Proofs.Session.Errors
import Monkey.Proofs.Session.Expansion
import Monkey.Proofs.Run.Unmentioned
import Monkey.Proofs.Session.Repeat
import Monkey.Proofs.Phrase.Layout
import Monkey.Proofs.Run.Hash
import Monkey.Proofs.Session.Template
import Monkey.Proofs.Run.Listing
import Monkey.Proofs.Session.Shown
import Monkey.Proofs.Phrase.Ending
import Monkey.Proofs.Run.Functionless
import Monkey.Proofs.Run.Arithmetic
import Monkey.Proofs.Run.Exit
import Monkey.Handles
import Monkey.Proofs.Session.Sharing
import Monkey.Proofs.Session.Identity
import Monkey.Proofs.Token.Lines
import Monkey.Proofs.Run.Sequences
import Monkey.Proofs.Session.Dialogue
import Monkey.Proofs.Phrase.Unique
import Monkey.Proofs.Phrase.Walk
